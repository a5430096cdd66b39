import Netpoll.Fifo.ReadWake

namespace Netpoll.ReadFifo

open Netpoll.Lib.Threads Netpoll.Lib.Transition

structure Polling (s : System) : Prop where
  poller : s.pc 0 = .idle ∨ (s.pc 0).polls
  doing : s.shared.operator = .doing → (s.pc 0).polls

section Access

variable {f : Fifo} {k j : Nat} {p : Pc} {m : Move Fifo Pc}

theorem next_operator (hn : next f k j p = some m) (hm : m.shared.operator = .doing) :
    f.operator = .doing := by
  cases p
  case wait w r =>
    obtain ⟨⟨b, o⟩, -, rfl⟩ := Option.map_eq_some_iff.mp hn
    exact hm
  all_goals
    simp only [next] at hn
    (try split_ifs at hn) <;> cases hn <;> first | exact hm | cases hm

theorem next_polls (hn : next f k j p = some m) (hp : p.polls) :
    m.pc.polls ∨ m.pc = .idle ∧ m.shared.operator = .inuse := by
  cases p <;> simp only [Pc.polls, Bool.false_eq_true] at hp
  all_goals
    simp only [next] at hn
    (try split_ifs at hn) <;> cases hn
  all_goals simp [Pc.polls]

theorem next_onFifoRead (hn : next f k j p = some m) (hf : f.onFifoRead) :
    m.shared.onFifoRead := by
  cases p
  case wait w r =>
    obtain ⟨⟨b, o⟩, -, rfl⟩ := Option.map_eq_some_iff.mp hn
    exact hf
  all_goals
    simp only [next] at hn
    (try split_ifs at hn) <;> cases hn <;> first | exact hf | rfl

theorem next_eq_none (hn : next f k j p = none) :
    p = .idle ∨ p = .finFree ∧ f.operator = .doing ∨ ∃ n r, p = .wait (.recv n) r := by
  cases p
  case wait w r =>
    refine .inr (.inr ?_)
    rw [next, Option.map_eq_none_iff] at hn
    cases w <;> simp only [Input.waitRead] at hn
    case status n => cases hc : f.inbox.closing <;> simp [hc] at hn
    case recv n => exact ⟨n, r, rfl⟩
    all_goals cases hn
  all_goals
    simp only [next] at hn
    (try split_ifs at hn) <;> simp_all

end Access

section Step

variable {s s' : System} {a : Label}

theorem Polling.step (hp : Polling s) (hs : step s a = some s') : Polling s' := by
  -- goroutine 0 is never where a callback runs, so it neither waits nor panics
  have hcall : ∀ {p : Pc}, s.pc 0 = p → p.reading = false := by
    rintro p rfl
    rcases hp.poller with h | h
    · rw [h]
      rfl
    · cases hq : s.pc 0 <;> simp_all [Pc.polls, Pc.reading]
  have elsewhere {f : Fifo} {k : Nat} {p : Pc} (hk : k ≠ 0)
      (ho : f.operator = .doing → s.shared.operator = .doing) : Polling (s.enter f k p) :=
    ⟨by simpa [hk.symm] using hp.poller, fun h => by simpa [hk.symm] using hp.doing (ho h)⟩
  cases step_cases hs with
  | @begins k p f hb =>
    rcases hb.operator with ⟨rfl, h0⟩ | ⟨hk, ho⟩
    · exact ⟨.inr (by simpa using h0), fun _ => by simpa using h0⟩
    · exact elsewhere hk fun h => ho.symm.trans h
  | @waits k n r _ hr =>
    obtain ⟨hk, hout⟩ := site_pc hr
    refine elsewhere ?_ id
    rintro rfl
    cases r
    · exact absurd (hout rfl) (by decide)
    all_goals simpa [Site.pc, Pc.reading] using hcall hk
  | consume => exact ⟨hp.poller, hp.doing⟩
  | @panic k _ hk =>
    refine elsewhere ?_ id
    rintro rfl
    rcases hk with hk | hk <;> simpa [Pc.reading] using hcall hk
  | @move k j f p _ hn =>
    rcases eq_or_ne k 0 with rfl | hk
    · rcases hp.poller with h | h
      · simp [h, next] at hn
      · rcases next_polls hn h with hm | ⟨hm, ho⟩
        · exact ⟨.inr (by simpa using hm), fun _ => by simpa using hm⟩
        · exact ⟨.inl (by simpa using hm), fun h => by simp_all⟩
    · exact elsewhere hk (next_operator hn)
  | @spawn k j f p t _ hn hj hjk =>
    have hj0 : j ≠ 0 := by omega
    obtain ⟨-, hpc, -, rfl⟩ := next_spawn hn
    rcases eq_or_ne k 0 with rfl | hk
    · have hm : p.polls := by
        rcases hp.poller with h | h
        · simp [h, next] at hn
        · exact (next_polls hn h).resolve_right (by rcases hpc with rfl | rfl <;> simp)
      exact ⟨.inr (by simpa [hj0.symm] using hm), fun _ => by simpa [hj0.symm] using hm⟩
    · exact ⟨by simpa [hj0.symm, hk.symm] using hp.poller,
        fun h => by simpa [hj0.symm, hk.symm] using hp.doing h⟩

theorem Polling.init (onFifoRead : Bool) : Polling (init onFifoRead) :=
  ⟨.inl rfl, by simp [ReadFifo.init]⟩

def Pc.willClose (p : Pc) : Bool :=
  p.holds || match p with
    | .hupTrigger | .hupLoad | .closeBy | .closeTrigger | .force | .ccLock _ | .recheck _
    | .relock _ => true
    | _ => false

def Fifo.CloseDue (f : Fifo) : Prop := f.inbox.closing ≠ .none ∧ f.traversals = 0

theorem next_willClose {f : Fifo} {k j : Nat} {p : Pc} {m : Move Fifo Pc}
    (hn : next f k j p = some m) (hf : f.onFifoRead) (hp : p.willClose) (hd : m.shared.CloseDue) :
    m.pc.willClose ∨ f.processing.isSome ∧ p.holds = false ∨ p.traversing := by
  cases p
  case wait w r =>
    obtain ⟨⟨b, o⟩, -, rfl⟩ := Option.map_eq_some_iff.mp hn
    have hh : (r.after o).holds = (Pc.wait w r).holds := by rw [Pc.holds_after, Pc.holds_wait]
    exact .inl (by simpa [Pc.willClose, hh] using Or.inl hp)
  all_goals simp [Pc.willClose, Pc.holds] at hp
  all_goals
    simp only [next] at hn
    (try split_ifs at hn) <;> cases hn
  all_goals simp_all [Pc.willClose, Pc.holds, Pc.traversing, Fifo.CloseDue]

theorem next_traversals {f : Fifo} {k j : Nat} {p : Pc} {m : Move Fifo Pc}
    (hn : next f k j p = some m) : f.traversals ≤ m.shared.traversals := by
  cases next_lock hn <;> simp_all

theorem next_closeDue {f : Fifo} {k j : Nat} {p : Pc} {m : Move Fifo Pc}
    (hn : next f k j p = some m) (hp : p.closes → f.inbox.closing ≠ .none)
    (hd : m.shared.CloseDue) : f.CloseDue ∨ m.pc.willClose := by
  have ht : f.traversals = 0 := by
    have := next_traversals hn
    have := hd.2
    omega
  rcases (next_closing hn hp).1 with hc | ⟨-, hc | hc | hc⟩
  · exact .inl ⟨hc ▸ hd.1, ht⟩
  · exact .inr (by rw [hc]; rfl)
  · exact .inr (by rw [hc]; rfl)
  · exact .inl ⟨hc, ht⟩

abbrev DueMet : System → Prop := State.Covered Fifo.CloseDue Pc.willClose

theorem Locked.closer (hl : Locked s) (h0 : s.shared.traversals = 0)
    (hp : s.shared.processing.isSome) : ∃ i, (s.pc i).holds := by
  obtain ⟨i, hi⟩ := Option.isSome_iff_exists.mp hp
  exact ⟨i, (hl.owner i hi).resolve_right (by simp [h0])⟩

namespace DueMet

theorem step (hd : DueMet s) (hl : Locked s) (hc : Closed s) (hf : s.shared.onFifoRead)
    (hs : step s a = some s') : DueMet s' := by
  cases step_cases hs with
  | @begins k p f hb =>
    refine hd.enter (fun h => .inl ?_) (by simp [hb.idle, Pc.willClose, Pc.holds])
    simpa [Fifo.CloseDue, hb.inbox, hb.traversals] using h
  | @waits k n r _ hr =>
    have hk := (site_pc hr).1
    refine hd.enter .inl fun _ hw => .inl ?_
    rw [hk] at hw
    cases r
    · simp [Site.pc, Pc.willClose, Pc.holds] at hw
    all_goals rfl
  | consume => exact hd
  | panic _ hk => exact hd.enter .inl fun _ _ => .inl rfl
  | @move k j f p _ hn =>
    refine hd.enter (next_closeDue hn (hc k)) fun hdue hw => ?_
    rcases next_willClose hn hf hw hdue with hp | ⟨hlock, hh⟩ | ht
    · exact .inl hp
    · have h0 : s.shared.traversals = 0 := by
        have := next_traversals hn
        have := hdue.2
        simp_all
      obtain ⟨i, hi⟩ := hl.closer h0 hlock
      refine .inr ⟨i, ?_, by simp [Pc.willClose, hi]⟩
      rintro rfl
      simp [hh] at hi
    · have := next_traversals hn
      have := hdue.2
      have := hl.during k ht
      simp_all
  | @spawn k j f p t _ hn _ hjk =>
    obtain ⟨rfl, -⟩ := next_spawn hn
    exact fun _ => ⟨j, by simp [Pc.willClose, Pc.holds]⟩

theorem init (onFifoRead : Bool) : DueMet (init onFifoRead) := by
  simp [State.Covered, ReadFifo.init, Fifo.CloseDue]

end DueMet

theorem onFifoRead_step (hf : s.shared.onFifoRead) (hs : ReadFifo.step s a = some s') :
    s'.shared.onFifoRead := by
  cases step_cases hs with
  | begins hb => exact hb.onFifoRead.trans hf
  | waits => exact hf
  | consume => exact hf
  | panic => exact hf
  | move _ hn => exact next_onFifoRead hn hf
  | spawn _ hn => exact next_onFifoRead hn hf

structure Serving (s : System) : Prop where
  locked : Locked s
  closed : Closed s
  awake : Awake s
  polling : Polling s
  onFifoRead : s.shared.onFifoRead
  dueMet : DueMet s

theorem serving_of_reach (hr : Reach ReadFifo.step (fun _ a => a.inside) (init true) s) :
    Serving s := by
  refine hr.invariant ⟨.init _, .init _, .init _, .init _, rfl, .init _⟩ fun s a s' hi hg hs => ?_
  exact
    { locked := hi.locked.step hs
      closed := hi.closed.step hs
      awake := hi.awake.step hi.locked hi.closed hg hs
      polling := hi.polling.step hs
      onFifoRead := onFifoRead_step hi.onFifoRead hs
      dueMet := hi.dueMet.step hi.locked hi.closed hi.onFifoRead hs }

theorem Polling.of_quiet (hp : Polling s) (hq : Quiet s) (i : Nat) :
    s.pc i = .idle ∨ ∃ n r, s.pc i = .wait (.recv n) r := by
  rcases next_eq_none (hq i 0) with h | ⟨-, ho⟩ | h
  · exact .inl h
  · -- the finalizer spins on the poller, which can go on
    have h0 := hp.doing ho
    rcases next_eq_none (hq 0 0) with h | ⟨h, -⟩ | ⟨n, r, h⟩ <;> simp [h, Pc.polls] at h0
  · exact .inr h

end Step

/-- The callbacks run at most once and never beside `OnFifoRead`, and once the
FIFO is closing and nobody can move they have run. -/
theorem closeCallbacks_once {s : System}
    (hr : Reach step (fun _ a => a.inside) (init true) s) :
    s.shared.traversals ≤ 1 ∧
      (∀ i k, (s.pc i).traversing → (s.pc k).reading = false) ∧
      (s.shared.inbox.closing ≠ .none → Quiet s → s.shared.traversals = 1) := by
  have hi := serving_of_reach hr
  refine ⟨hi.locked.begun_le, fun i k ht => ?_, fun hc hq => ?_⟩
  · by_contra hk
    obtain ⟨hkh, hkt⟩ := Pc.holds_of_reading (by simpa using hk)
    obtain rfl := hi.locked.owned.unique i k (Pc.holds_of_traversing ht) hkh
    simp [hkt] at ht
  · by_contra hne
    have h0 : s.shared.traversals = 0 := by
      have := hi.locked.begun_le
      omega
    obtain ⟨i, hw⟩ := hi.dueMet ⟨hc, h0⟩
    rcases hi.polling.of_quiet hq i with h | ⟨n, r, h⟩
    · simp [h, Pc.willClose, Pc.holds] at hw
    · exact hc (hi.awake.of_quiet hq h).2

theorem closeCallbacks_once_panic :
    ∃ s, Reach step (fun _ a => a.inside) (init true) s ∧ s.shared.inbox.closing = .user ∧
      Quiet s ∧ s.shared.traversals = 1 := by
  have hrun : ∃ s, runs (guarded step fun _ a => a.inside) (init true)
      (List.flatten [[.attach .readFifo true], List.replicate 3 (.run 1 4),
        List.replicate 7 (.run 4 0), [.readable 1], List.replicate 4 (.run 0 4),
        List.replicate 2 (.run 4 0), [.panic 4], List.replicate 10 (.run 4 0)]) = some s ∧
      s.shared.inbox.closing = .user ∧ Quiet s := by
    refine ⟨_, rfl, rfl, Quiet.of_one (k := 4) (fun _ => rfl) fun i hi => ?_⟩
    simp +contextual [State.enter, init, Function.update_apply, hi]
  obtain ⟨s, hs, hc, hq⟩ := hrun
  have hr := Reach.of_runs hs
  exact ⟨s, hr, hc, hq, (closeCallbacks_once hr).2.2 (by simp [hc]) hq⟩

end Netpoll.ReadFifo
