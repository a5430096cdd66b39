import Netpoll.Fifo.ReadFifoLaws

namespace Netpoll.ReadFifo

open Netpoll.Lib.Threads Netpoll.Lib.Transition

/-- A task that loads the callback finds one. -/
def Label.findsCallback (s : System) : Label → Bool
  | .run k _ => s.pc k != .load || s.shared.onFifoRead
  | _ => true

def Pc.uncalled : Pc → Bool
  | .start cb | .loop cb | .test _ cb | .unlock cb | .recheck cb | .relock cb | .relen cb => !cb
  | _ => false

def Pc.delivers : Pc → Bool
  | .ackLock _ | .load | .start _ | .first | .loop _ | .test .. | .more | .unlock _ => true
  | .recheck _ | .relock _ | .relen _ | .restart | .panicUnlock | .closeBy => true
  | .wait _ .first | .wait _ .more => true
  | _ => false

def Fifo.Undelivered (f : Fifo) : Prop := 0 < f.inbox.length ∧ f.inbox.closing = .none

section Access

variable {f : Fifo} {k j : Nat} {p : Pc} {m : Move Fifo Pc}

theorem next_uncalled (hn : next f k j p = some m) (hp : p.uncalled = false)
    (hl : p = .load → f.onFifoRead) : m.pc.uncalled = false := by
  cases p
  case wait w r =>
    obtain ⟨⟨b, o⟩, -, rfl⟩ := Option.map_eq_some_iff.mp hn
    cases o <;> cases r <;> rfl
  case register caller ok => cases caller <;> cases ok <;> cases hn <;> rfl
  all_goals
    simp only [next] at hn
    (try split_ifs at hn) <;> cases hn
  all_goals simp_all [Pc.uncalled]

theorem next_length (hn : next f k j p = some m) :
    m.shared.inbox.length ≤ f.inbox.length ∨
      ∃ n, p = .inputAck n ∧ m.shared.inbox.length = f.inbox.length + n := by
  cases p
  case wait w r =>
    obtain ⟨⟨b, o⟩, hw, rfl⟩ := Option.map_eq_some_iff.mp hn
    exact .inl (Nat.le_of_eq (Input.waitRead_length hw))
  case inputAck n =>
    obtain rfl := Option.some.inj hn
    exact .inr ⟨n, rfl, rfl⟩
  all_goals
    simp only [next] at hn
    (try split_ifs at hn) <;> cases hn <;> simp [Fifo.trigger]

theorem next_undelivered (hn : next f k j p = some m) (hp : p.closes → f.inbox.closing ≠ .none)
    (hd : m.shared.Undelivered) : f.Undelivered ∨ m.pc.delivers := by
  have hclosing : f.inbox.closing = .none := by
    rcases (next_closing hn hp).1 with hc | ⟨hc, -⟩
    · exact hc.symm.trans hd.2
    · exact absurd hd.2 hc
  rcases next_length hn with hl | ⟨n, rfl, hl⟩
  · exact .inl ⟨Nat.lt_of_lt_of_le hd.1 hl, hclosing⟩
  · obtain rfl := Option.some.inj hn
    rcases Nat.eq_zero_or_pos f.inbox.length with h0 | hpos
    · right
      have hn0 : n ≠ 0 := by
        have hpos : 0 < f.inbox.length + n := hd.1
        omega
      simp [h0, hn0, Pc.delivers]
    · exact .inl ⟨hpos, hclosing⟩

theorem next_delivers (hn : next f k j p = some m) (hc : p.closes → f.inbox.closing ≠ .none)
    (hu : p.uncalled = false) (hp : p.delivers) (hd : m.shared.Undelivered) :
    m.pc.delivers ∨ m.task = some .load ∨ f.processing.isSome ∧ p.holds = false := by
  cases p
  case wait w r =>
    obtain ⟨⟨b, o⟩, -, rfl⟩ := Option.map_eq_some_iff.mp hn
    left
    cases o <;> cases r <;> simp_all [Pc.delivers, Site.after, Site.pc]
  all_goals simp only [Pc.delivers, Bool.false_eq_true] at hp
  all_goals
    simp only [next] at hn
    (try split_ifs at hn) <;> cases hn
  all_goals simp_all [Pc.delivers, Pc.holds, Pc.closes, Pc.uncalled, Fifo.Undelivered]

end Access

section Step

variable {s s' : System} {a : Label}

def Traversed (s : System) : Prop := s.shared.traversals ≠ 0 → s.shared.inbox.closing ≠ .none

theorem Traversed.step (ht : Traversed s) (hc : Closed s) (hs : step s a = some s') :
    Traversed s' := by
  have access {k j : Nat} {m : Move Fifo Pc} (hn : next s.shared k j (s.pc k) = some m)
      (h : m.shared.traversals ≠ 0) : m.shared.inbox.closing ≠ .none := by
    obtain ⟨hcl, -⟩ := next_closing hn (hc k)
    have hclosing : s.shared.inbox.closing ≠ .none := by
      by_cases h0 : s.shared.traversals = 0
      · refine hc k ?_
        cases hp : s.pc k <;> simp only [hp] at hn
        case wait w r =>
          obtain ⟨⟨b, o⟩, -, rfl⟩ := Option.map_eq_some_iff.mp hn
          exact absurd h0 h
        all_goals
          simp only [next] at hn
          (try split_ifs at hn) <;> cases hn <;> first | rfl | exact absurd h0 h
      · exact ht h0
    rcases hcl with hcl | ⟨hcl, -⟩
    · exact hcl ▸ hclosing
    · exact hcl
  cases step_cases hs with
  | begins hb => simpa [Traversed, hb.inbox, hb.traversals] using ht
  | waits => exact ht
  | consume => exact ht
  | panic => exact ht
  | move _ hn => exact access hn
  | spawn _ hn => exact access hn

def Called : System → Prop := State.Facts fun _ p => p.uncalled = false

theorem Called.step (hu : Called s) (hg : a.findsCallback s) (hs : step s a = some s') :
    Called s' := by
  have keep {f : Fifo} {k : Nat} {p : Pc} (hp : p.uncalled = false) : Called (s.enter f k p) :=
    State.Facts.enter hu (fun _ _ => id) hp
  have loads {k j : Nat} (ha : a = .run k j) (hk : s.pc k = .load) : s.shared.onFifoRead := by
    subst ha
    simpa [Label.findsCallback, hk] using hg
  cases step_cases hs with
  | @begins k p f hb =>
    have he := hb.entry
    exact keep (by cases p <;> simp_all [Pc.entry, Pc.uncalled])
  | waits => exact keep rfl
  | consume => exact hu
  | panic => exact keep rfl
  | move ha hn => exact keep (next_uncalled hn (hu _) (loads ha))
  | spawn ha hn =>
    obtain ⟨rfl, -⟩ := next_spawn hn
    exact State.Facts.enter (keep (next_uncalled hn (hu _) (loads ha))) (fun _ _ => id) rfl

theorem Locked.deliverer (hl : Locked s) (hc : Closed s) (ht : Traversed s)
    (hopen : s.shared.inbox.closing = .none) (hp : s.shared.processing.isSome) :
    ∃ i, (s.pc i).holds ∧ (s.pc i).delivers := by
  obtain ⟨i, hi⟩ := Option.isSome_iff_exists.mp hp
  have hh : (s.pc i).holds := by
    rcases hl.owner i hi with h | h
    · exact h
    · exact absurd hopen (ht (by simp [show s.shared.traversals = 1 from h]))
  refine ⟨i, hh, ?_⟩
  have hno : (s.pc i).closes = false := by
    by_contra hcl
    exact hc i (by simpa using hcl) hopen
  cases hq : s.pc i
  case wait w r => cases r <;> simp_all [Pc.holds, Pc.delivers]
  all_goals simp_all [Pc.holds, Pc.closes, Pc.delivers]

abbrev Attended : System → Prop := State.Covered Fifo.Undelivered Pc.delivers

theorem Attended.step (hd : Attended s) (hl : Locked s) (hc : Closed s) (ht : Traversed s)
    (hu : Called s) (hs : step s a = some s') : Attended s' := by
  cases step_cases hs with
  | @begins k p f hb =>
    refine hd.enter (fun h => .inl ?_) (by simp [hb.idle, Pc.delivers])
    simpa [Fifo.Undelivered, hb.inbox] using h
  | @waits k n r _ hr =>
    have hk := (site_pc hr).1
    refine hd.enter .inl fun _ hw => .inl ?_
    rw [hk] at hw
    cases r
    · simp [Site.pc, Pc.delivers] at hw
    all_goals rfl
  | consume =>
    rintro ⟨hpos, hopen⟩
    exact hd ⟨by dsimp only at hpos; omega, hopen⟩
  | panic => exact hd.enter .inl fun _ _ => .inl rfl
  | @move k j f p _ hn =>
    refine hd.enter (next_undelivered hn (hc k)) fun hdue hw => ?_
    rcases next_delivers hn (hc k) (hu k) hw hdue with hp | htask | ⟨hlock, hh⟩
    · exact .inl hp
    · cases htask
    · have hopen : s.shared.inbox.closing = .none := by
        rcases (next_closing hn (hc k)).1 with hcl | ⟨hcl, -⟩
        · exact hcl.symm.trans hdue.2
        · exact absurd hdue.2 hcl
      obtain ⟨i, hi, hid⟩ := hl.deliverer hc ht hopen hlock
      refine .inr ⟨i, ?_, hid⟩
      rintro rfl
      simp [hh] at hi
  | @spawn k j f p t _ hn _ hjk =>
    obtain ⟨rfl, -⟩ := next_spawn hn
    exact fun _ => ⟨j, by simp [Pc.delivers]⟩

theorem attended_of_reach {onFifoRead : Bool}
    (hr : Reach ReadFifo.step (fun s a => a.findsCallback s) (init onFifoRead) s) :
    Attended s := by
  have hi : Locked s ∧ Closed s ∧ Traversed s ∧ Called s ∧ Attended s := by
    refine hr.invariant
      (I := fun s => Locked s ∧ Closed s ∧ Traversed s ∧ Called s ∧ Attended s) ?_ ?_
    · refine ⟨.init _, .init _, ?_, ?_, ?_⟩ <;>
        simp [Traversed, Called, State.Facts, State.Covered, init, Pc.uncalled, Fifo.Undelivered]
    · rintro s a s' ⟨hl, hc, ht, hu, hd⟩ hg hs
      exact ⟨hl.step hs, hc.step hs, ht.step hc hs, hu.step hg hs, hd.step hl hc ht hu hs⟩
  exact hi.2.2.2.2

end Step

/-- When every task finds a callback, an open FIFO is left empty. -/
theorem transfer_delivered (onFifoRead : Bool) {s : System}
    (hr : Reach step (fun s a => a.findsCallback s) (init onFifoRead) s)
    (hopen : s.shared.inbox.closing = .none) (hidle : ∀ i, s.pc i = .idle) :
    s.shared.inbox.length = 0 := by
  by_contra hne
  obtain ⟨i, hi⟩ := attended_of_reach hr ⟨by omega, hopen⟩
  simp [hidle i, Pc.delivers] at hi

theorem transfer_delivered_late :
    ∃ s, Reach step (fun s a => a.findsCallback s) (init false) s ∧ s.shared.attachDone ∧
      s.shared.inbox.length = 0 ∧ ∀ i, s.pc i = .idle := by
  have hrun : ∃ s, runs (guarded step fun s a => a.findsCallback s) (init false)
      (List.flatten [[.attach .connection true], List.replicate 3 (.run 1 4), [.readable 1],
        List.replicate 4 (.run 0 4), List.replicate 2 (.run 4 0), [.consume 4 1],
        List.replicate 6 (.run 4 0)]) = some s ∧
      s.shared.attachDone ∧ s.shared.inbox.closing = .none ∧ ∀ i, s.pc i = .idle := by
    refine ⟨_, rfl, rfl, rfl, fun i => ?_⟩
    simp +contextual [State.enter, init, Function.update_apply]
  obtain ⟨s, hs, hdone, hopen, hidle⟩ := hrun
  have hr := Reach.of_runs hs
  exact ⟨s, hr, hdone, transfer_delivered false hr hopen hidle, hidle⟩

/-- A chunk between the registration and the callback stays, and so does the
chunk after it. -/
theorem transfer_lost :
    ∃ s, Reach step (fun _ _ => True) (init false) s ∧ s.shared.attachDone ∧
      s.shared.onFifoRead ∧ s.shared.inbox.closing = .none ∧ s.shared.inbox.length = 2 ∧
      ∀ i, s.pc i = .idle := by
  have hrun : ∃ s, runs (guarded step fun _ _ => true) (init false)
      (List.flatten [[.attach .connection true, .run 1 0, .readable 1],
        List.replicate 4 (.run 0 4), List.replicate 7 (.run 4 0),
        List.replicate 2 (.run 1 0), [.readable 1], List.replicate 5 (.run 0 4)]) = some s ∧
      s.shared.attachDone ∧ s.shared.onFifoRead ∧ s.shared.inbox.closing = .none ∧
      s.shared.inbox.length = 2 ∧ ∀ i, s.pc i = .idle := by
    refine ⟨_, rfl, rfl, rfl, rfl, rfl, fun i => ?_⟩
    simp +contextual [State.enter, init, Function.update_apply]
  obtain ⟨s, hs, hall⟩ := hrun
  exact ⟨s, (Reach.of_runs hs).mono fun _ _ _ _ => trivial, hall⟩

end Netpoll.ReadFifo
