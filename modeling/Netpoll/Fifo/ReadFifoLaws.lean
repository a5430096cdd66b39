import Mathlib.Tactic.Common
import Netpoll.Lib.CloseOnce
import Netpoll.Fifo.ReadFifo

namespace Netpoll.ReadFifo

open Netpoll.Lib Netpoll.Lib.Threads Netpoll.Lib.Transition Netpoll.Input

def Pc.entry : Pc → Bool
  | .register .. | .inputs _ | .appendHup | .hupClose | .closeBy => true
  | _ => false

def Pc.polls : Pc → Bool
  | .inputs _ | .inputAck _ | .ackLock _ | .ackWait _ | .ackTrigger | .appendHup | .done => true
  | _ => false

structure Begins (s : System) (k : Nat) (p : Pc) (f : Fifo) : Prop where
  idle : s.pc k = .idle
  entry : p.entry
  inbox : f.inbox = s.shared.inbox
  processing : f.processing = s.shared.processing
  onFifoRead : f.onFifoRead = s.shared.onFifoRead
  traversals : f.traversals = s.shared.traversals
  operator : k = 0 ∧ p.polls ∨ k ≠ 0 ∧ f.operator = s.shared.operator

inductive StepCase (s : System) (a : Label) : System → Prop
  | begins {k p f} : Begins s k p f → StepCase s a (s.enter f k p)
  | waits {k n r} : a = .waitRead k n → site s k = some r →
      StepCase s a (s.enter s.shared k (.wait (.entry n) r))
  | consume {k m} : a = .consume k m →
      StepCase s a { s with shared.inbox.length := s.shared.inbox.length - m }
  | panic {k} : a = .panic k → s.pc k = .first ∨ s.pc k = .more →
      StepCase s a (s.enter s.shared k .panicUnlock)
  | move {k j f p} : a = .run k j → next s.shared k j (s.pc k) = some ⟨f, p, none⟩ →
      StepCase s a (s.enter f k p)
  | spawn {k j f p t} : a = .run k j → next s.shared k j (s.pc k) = some ⟨f, p, some t⟩ →
      4 ≤ j → j ≠ k → s.pc j = .idle → StepCase s a ((s.enter f k p).enter f j t)

theorem step_cases {s s' : System} {a : Label} (hs : step s a = some s') : StepCase s a s' := by
  cases a
  case run k j =>
    obtain ⟨c, p, hn, rfl⟩ | ⟨c, p, t, hn, hb, hj, hi, rfl⟩ := State.run_cases hs
    · exact .move rfl hn
    · exact .spawn rfl hn hb hj hi
  case waitRead k n =>
    obtain ⟨r, hr, rfl⟩ := Option.map_eq_some_iff.mp hs
    exact .waits rfl hr
  case consume k m =>
    simp only [step] at hs
    split at hs <;> cases hs
    exact .consume rfl
  case panic k =>
    simp only [step] at hs
    split at hs <;> cases hs <;> exact .panic rfl (by simp [*])
  all_goals
    simp only [step, poll, call] at hs
    split at hs <;> cases hs
    refine .begins ?_
    constructor <;> simp_all [Pc.entry, Pc.polls] <;> omega

def Pc.holds : Pc → Bool
  | .ccDetach _ | .ccLoad | .ccRun | .finFree | .finFd | .finBuffer => true
  | .load | .start _ | .first | .loop _ | .test .. | .more | .unlock _ | .panicUnlock => true
  | .wait _ .first | .wait _ .more => true
  | _ => false

def Pc.traversing : Pc → Bool
  | .ccRun | .finFree | .finFd | .finBuffer => true
  | _ => false

def Pc.reading : Pc → Bool
  | .first | .more | .wait _ .first | .wait _ .more => true
  | _ => false

theorem Pc.holds_of_traversing {p : Pc} (h : p.traversing) : p.holds := by
  cases p <;> first | rfl | cases h

theorem Pc.holds_of_reading {p : Pc} (h : p.reading) : p.holds ∧ p.traversing = false := by
  unfold Pc.reading at h
  split at h <;> simp_all [Pc.holds, Pc.traversing]

theorem Pc.holds_of_entry {p : Pc} (h : p.entry) : p.holds = false ∧ p.traversing = false := by
  cases p <;> first | exact ⟨rfl, rfl⟩ | cases h

theorem Pc.holds_wait {w : WaitPc} {r : Site} : (Pc.wait w r).holds = r.pc.holds := by
  cases r <;> rfl

theorem Pc.traversing_pc {r : Site} : r.pc.traversing = false := by
  cases r <;> rfl

theorem Pc.holds_after {o : Option WaitPc} {r : Site} : (r.after o).holds = r.pc.holds := by
  cases o with
  | none => rfl
  | some w => exact holds_wait

theorem Pc.traversing_after {o : Option WaitPc} {r : Site} : (r.after o).traversing = false := by
  cases o <;> cases r <;> rfl

theorem site_pc {s : System} {k : Nat} {r : Site} (h : site s k = some r) :
    s.pc k = r.pc ∧ (r = .outside → k = 3) := by
  unfold site at h
  split at h
  · obtain rfl := Option.some.inj h
    simp [*, Site.pc]
  · obtain rfl := Option.some.inj h
    simp [*, Site.pc]
  · split at h <;> cases h
    simp_all [Site.pc]
  · cases h

abbrev Locked : System → Prop :=
  CloseOnce.Locked Fifo.processing Fifo.traversals Pc.holds Pc.traversing

theorem next_lock {f : Fifo} {k j : Nat} {p : Pc} {m : Move Fifo Pc}
    (hn : next f k j p = some m) :
    CloseOnce.LockMove Fifo.processing Fifo.traversals Pc.holds Pc.traversing f k j p m := by
  cases p
  case wait w r =>
    obtain ⟨⟨b, o⟩, -, rfl⟩ := Option.map_eq_some_iff.mp hn
    exact .keep rfl rfl (by rw [Pc.holds_after, Pc.holds_wait]) Pc.traversing_after
  case register caller ok =>
    cases caller <;> cases ok <;> cases hn <;> exact .keep rfl rfl rfl rfl
  all_goals
    simp only [next] at hn
    (try split_ifs at hn) <;> cases hn
  all_goals first
    | exact .keep rfl rfl rfl rfl
    | exact .acquire (by simp_all) rfl rfl rfl rfl
    | exact .hand (by simp_all) rfl rfl rfl rfl rfl
    | exact .release rfl rfl rfl rfl rfl
    | exact .begin rfl rfl rfl rfl rfl
    | exact .finish rfl rfl rfl rfl

namespace Locked

variable {s s' : System} {a : Label}

theorem step (hl : Locked s) (hs : step s a = some s') : Locked s' := by
  cases step_cases hs with
  | begins hb =>
    obtain ⟨hh, hv⟩ := Pc.holds_of_entry hb.entry
    exact hl.keep hb.processing hb.traversals (by rw [hh, hb.idle]; rfl)
      (by rw [hv, hb.idle]; rfl)
  | @waits k n r _ hr =>
    have hk := (site_pc hr).1
    exact hl.keep rfl rfl (by rw [hk, Pc.holds_wait]) (by rw [hk, Pc.traversing_pc]; rfl)
  | consume => exact ⟨hl.owned, hl.before, hl.during, hl.free, hl.owner⟩
  | panic _ hk =>
    have hkeep : (s.pc _).holds ∧ (s.pc _).traversing = false :=
      Pc.holds_of_reading (by rcases hk with hk | hk <;> rw [hk] <;> rfl)
    exact hl.keep rfl rfl hkeep.1.symm hkeep.2.symm
  | move _ hn => exact hl.move (fun _ => Pc.holds_of_traversing) (next_lock hn)
  | spawn _ hn => exact hl.spawn (fun _ => Pc.holds_of_traversing) (next_lock hn)

theorem init (onFifoRead : Bool) : Locked (init onFifoRead) := by
  constructor <;> simp [ReadFifo.init, State.Owned, Pc.holds, Pc.traversing]

end Locked

section Facts

variable {s s' : System} {a : Label}

def Pc.closes : Pc → Bool
  | .hupTrigger | .hupLoad | .closeTrigger | .force | .ccLock _ | .ccDetach _ | .ccLoad => true
  | .ccRun | .finFree | .finFd | .finBuffer | .relock _ => true
  | .test closedBy _ => closedBy != .none
  | _ => false

theorem next_spawn {f f' : Fifo} {k j : Nat} {p p' t : Pc}
    (hn : next f k j p = some ⟨f', p', some t⟩) :
    t = .load ∧ (p' = .done ∨ p' = .attached) ∧ f.processing = none ∧
      f' = { f with processing := some j } := by
  cases p
  case wait w r => simp [next] at hn
  all_goals
    simp only [next] at hn
    (try split_ifs at hn) <;> cases hn
  all_goals simp_all

theorem next_closing {f : Fifo} {k j : Nat} {p : Pc} {m : Move Fifo Pc}
    (hn : next f k j p = some m) (hp : p.closes → f.inbox.closing ≠ .none) :
    (m.shared.inbox.closing = f.inbox.closing ∨ m.shared.inbox.closing ≠ .none ∧
      (m.pc = .hupTrigger ∨ m.pc = .closeTrigger ∨ f.inbox.closing ≠ .none)) ∧
      (m.pc.closes → m.shared.inbox.closing ≠ .none) := by
  cases p
  case wait w r =>
    obtain ⟨⟨b, o⟩, hw, rfl⟩ := Option.map_eq_some_iff.mp hn
    refine ⟨.inl (waitRead_closing hw), ?_⟩
    cases o <;> cases r <;> simp [Site.after, Site.pc, Pc.closes]
  case loop cb =>
    obtain rfl := Option.some.inj hn
    simp [Pc.closes]
  case register caller ok => cases caller <;> cases ok <;> cases hn <;> simp [Attach.pc, Pc.closes]
  all_goals
    simp only [next] at hn
    (try split_ifs at hn) <;> cases hn
  all_goals simp_all [Pc.closes, Fifo.trigger]

def Closed : System → Prop :=
  State.Facts fun f p => p.closes → f.inbox.closing ≠ .none

namespace Closed

theorem keep {f : Fifo} {k : Nat} {p : Pc} (hc : Closed s)
    (hf : s.shared.inbox.closing ≠ .none → f.inbox.closing ≠ .none)
    (hp : p.closes → f.inbox.closing ≠ .none) : Closed (s.enter f k p) :=
  State.Facts.enter hc (fun _ _ hi hp => hf (hi hp)) hp

theorem step (hc : Closed s) (hs : step s a = some s') : Closed s' := by
  cases step_cases hs with
  | @begins k p f hb =>
    refine hc.keep (by simp [hb.inbox]) ?_
    have he := hb.entry
    cases p <;> simp_all [Pc.entry, Pc.closes]
  | waits => exact hc.keep id (by simp [Pc.closes])
  | consume => exact hc
  | panic => exact hc.keep id (by simp [Pc.closes])
  | move _ hn =>
    obtain ⟨hcl, hp⟩ := next_closing hn (hc _)
    exact hc.keep (by rcases hcl with hcl | hcl <;> simp_all) hp
  | spawn _ hn =>
    obtain ⟨-, hp⟩ := next_closing hn (hc _)
    obtain ⟨rfl, -, -, rfl⟩ := next_spawn hn
    exact (hc.keep id hp).keep id (by simp [Pc.closes])

theorem init (onFifoRead : Bool) : Closed (init onFifoRead) := by
  simp [Closed, State.Facts, ReadFifo.init, Pc.closes]

end Closed

/-- No goroutine can make an access. -/
def Quiet (s : System) : Prop :=
  ∀ i j, next s.shared i j (s.pc i) = none

theorem Quiet.of_one {k : Nat} (hk : ∀ j, next s.shared k j (s.pc k) = none)
    (hidle : ∀ i, i ≠ k → s.pc i = .idle) : Quiet s := by
  intro i j
  rcases eq_or_ne i k with rfl | hik
  · exact hk j
  · rw [hidle i hik]
    rfl

end Facts

end Netpoll.ReadFifo
