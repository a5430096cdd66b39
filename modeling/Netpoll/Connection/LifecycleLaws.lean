import Mathlib.Tactic.Common
import Netpoll.Connection.Lifecycle
import Netpoll.Lib.CloseOnce

namespace Netpoll.Connection

open Netpoll.Lib Netpoll.Lib.Threads Netpoll.Lib.Transition

def Pc.handling : Pc → Bool
  | .onConnect _ | .first _ | .more _ => true
  | _ => false

def Pc.entry : Pc → Bool
  | .inputs _ | .outputs | .appendHup | .hupClose | .acceptActive | .closeBy | .setLen
  | .flushActive => true
  | _ => false

structure Begins (s : System) (a : Label) (k : Nat) (p : Pc) (c : Conn) : Prop where
  idle : s.pc k = .idle
  entry : p.entry
  closing : c.closing = s.shared.closing
  connecting : c.connecting = s.shared.connecting
  processing : c.processing = s.shared.processing
  state : c.state = s.shared.state
  length : c.length = s.shared.length
  detached : c.detached = s.shared.detached
  hung : c.hung = s.shared.hung
  connected : c.connected = s.shared.connected
  disconnects : c.disconnects = s.shared.disconnects
  traversals : c.traversals = s.shared.traversals
  frees : c.frees = s.shared.frees
  fdOpen : c.fdOpen = s.shared.fdOpen
  onRequest : c.onRequest = s.shared.onRequest ∨ ∃ k, a = .setOnRequest k
  accept : p = .acceptActive ∧ k = 1 ∧ s.shared.accepted = false ∧ c.accepted = true ∨
    p ≠ .acceptActive ∧ c.accepted = s.shared.accepted
  onhups : p = .hupClose → s.shared.hung = true
  close : p = .closeBy → a = .close k ∨ a = .detach k

inductive StepCase (h : Handlers) (s : System) (a : Label) : System → Prop
  | begins {k p c} : Begins s a k p c → StepCase h s a (s.enter c k p)
  | consume {m} : m ≤ s.shared.length →
      StepCase h s a { s with shared.length := s.shared.length - m }
  | panic {k} : a = .panic k → (s.pc k).handling →
      StepCase h s a (s.enter s.shared k .panicUnlock)
  | move {k j c p} : a = .run k j → next h s.shared k j (s.pc k) = some ⟨c, p, none⟩ →
      StepCase h s a (s.enter c k p)
  | spawn {k j c p t} : a = .run k j → next h s.shared k j (s.pc k) = some ⟨c, p, some t⟩ →
      3 ≤ j → j ≠ k → s.pc j = .idle → StepCase h s a ((s.enter c k p).enter c j t)

theorem step_cases {h : Handlers} {s s' : System} {a : Label} (hs : step h s a = some s') :
    StepCase h s a s' := by
  cases a
  case run k j =>
    obtain ⟨c, p, hn, rfl⟩ | ⟨c, p, t, hn, hb, hj, hi, rfl⟩ := State.run_cases hs
    · exact .move rfl hn
    · exact .spawn rfl hn hb hj hi
  case consume m =>
    simp only [step] at hs
    split at hs <;> cases hs
    exact .consume ‹_›
  case panic k =>
    simp only [step] at hs
    split at hs <;> cases hs <;> exact .panic rfl (by simp [*, Pc.handling])
  all_goals
    simp only [step, poll, call] at hs
    split at hs <;> cases hs
    refine .begins ?_
    constructor <;> simp_all [Pc.entry]

def Pc.holds : Pc → Bool
  | .ccDetach _ | .ccLoad | .ccRun | .finStop | .finFree | .finFd | .finBuffer => true
  | .task .. | .onConnect _ | .connActive _ | .connHelp _ | .connDisc _ | .connUnlock .. => true
  | .start _ | .first _ | .loop _ | .test .. | .more _ | .unlock _ | .panicUnlock => true
  | _ => false

def Pc.traversing : Pc → Bool
  | .ccRun | .finStop | .finFree | .finFd | .finBuffer => true
  | _ => false

theorem Pc.holds_of_traversing {p : Pc} (h : p.traversing) : p.holds := by
  cases p <;> first | rfl | cases h

theorem Pc.not_idle_of_holds {p : Pc} (h : p.holds) : p ≠ .idle := by
  rintro rfl
  simp [Pc.holds] at h

theorem Pc.not_traversing {p : Pc} (h : p.holds = false) : p.traversing = false := by
  cases p <;> first | rfl | cases h

theorem Pc.holds_of_handling {p : Pc} (h : p.handling) : p.holds ∧ p.traversing = false := by
  cases p <;> first | exact ⟨rfl, rfl⟩ | cases h

theorem Pc.holds_of_entry {p : Pc} (h : p.entry) : p.holds = false := by
  cases p <;> first | rfl | cases h

def Label.meets (g : Pc → Conn → Bool) (s : System) : Label → Bool
  | .run k _ => g (s.pc k) s.shared
  | _ => true

/-- The deferred handler of a panicking task finds the connection active, so
that it calls `Close` and does not run the callbacks without the lock. -/
def Pc.recoverActive : Pc → Conn → Bool
  | .panicActive, c => c.isActive
  | _, _ => true

theorem no_task {P : Pc → Prop} (t : Pc) (ht : none = some t) : P t := nomatch ht

theorem next_lock {h : Handlers} {c : Conn} {k j : Nat} {p : Pc} {m : Move Conn Pc}
    (hn : next h c k j p = some m) (hp : p.recoverActive c) :
    CloseOnce.LockMove Conn.processing Conn.traversals Pc.holds Pc.traversing c k j p m := by
  cases p
  all_goals
    simp only [next, Pc.return] at hn
    (try split_ifs at hn) <;> cases hn
  all_goals first
    | exact .keep rfl rfl rfl rfl
    | exact .acquire (by simp_all) rfl rfl rfl rfl
    | exact .hand (by simp_all) rfl rfl rfl rfl rfl
    | exact .release rfl rfl rfl rfl rfl
    | exact .begin rfl rfl rfl rfl rfl
    | exact .finish rfl rfl rfl rfl
    | exact .keep rfl rfl (by simp_all [Pc.recoverActive]) (by simp_all [Pc.recoverActive])

abbrev Locked : System → Prop :=
  CloseOnce.Locked Conn.processing Conn.traversals Pc.holds Pc.traversing

namespace Locked

variable {h : Handlers} {s s' : System} {a : Label} {c : Conn} {i k : Nat} {p : Pc}

theorem step (hl : Locked s) (hg : a.meets Pc.recoverActive s) (hs : step h s a = some s') :
    Locked s' := by
  have hin : ∀ p : Pc, p.traversing → p.holds := fun _ => Pc.holds_of_traversing
  cases step_cases hs with
  | begins hb =>
    have hh := Pc.holds_of_entry hb.entry
    refine hl.keep hb.processing hb.traversals (hh.trans ?_) ((Pc.not_traversing hh).trans ?_)
    · simp [hb.idle, Pc.holds]
    · simp [hb.idle, Pc.traversing]
  | consume => exact ⟨hl.owned, hl.before, hl.during, hl.free, hl.owner⟩
  | panic _ hk =>
    obtain ⟨h1, h2⟩ := Pc.holds_of_handling hk
    exact hl.keep rfl rfl h1.symm h2.symm
  | move ha hn =>
    subst ha
    exact hl.move hin (next_lock hn hg)
  | spawn ha hn =>
    subst ha
    exact hl.spawn hin (next_lock hn hg)

theorem init (onRequest : Bool) : Locked (init onRequest) := by
  constructor <;> simp [Connection.init, State.Owned, Pc.holds, Pc.traversing]

end Locked

structure Later (c c' : Conn) : Prop where
  closing : c.closing ≠ .none → c'.closing ≠ .none
  state : c.state ≠ .none → c'.state ≠ .none
  disconnected : c.state = .disconnected → c'.state = .disconnected
  connected : c.connected = true → c'.connected = true
  detached : c.detached ≤ c'.detached
  hung : c.hung = true → c'.hung = true
  traversals : c.traversals ≤ c'.traversals

theorem next_later {h : Handlers} {c : Conn} {k j : Nat} {p : Pc} {m : Move Conn Pc}
    (hn : next h c k j p = some m) : Later c m.shared := by
  cases p
  all_goals
    simp only [next] at hn
    (try split_ifs at hn) <;> cases hn
  all_goals first
    | exact ⟨fun h => h, fun h => h, fun h => h, fun h => h, Nat.le_refl _, fun h => h,
        Nat.le_refl _⟩
    | constructor <;> simp_all

section Facts

variable {h : Handlers} {s s' : System} {a : Label}

theorem step_later (hs : step h s a = some s') : Later s.shared s'.shared := by
  cases step_cases hs with
  | begins hb =>
    constructor <;>
      simp [hb.closing, hb.state, hb.connected, hb.detached, hb.hung, hb.traversals]
  | consume => constructor <;> simp
  | panic => constructor <;> simp
  | move _ hn => exact next_later hn
  | spawn _ hn => exact next_later hn

structure Unmoved (c c' : Conn) : Prop where
  closing : c'.closing = c.closing
  state : c'.state = c.state
  length : c'.length ≤ c.length
  detached : c'.detached = c.detached
  hung : c'.hung = c.hung
  connected : c'.connected = c.connected
  disconnects : c'.disconnects = c.disconnects
  traversals : c'.traversals = c.traversals
  frees : c'.frees = c.frees

theorem unmoved_of_not_run (hs : step h s a = some s') (ha : ∀ k j, a ≠ .run k j) :
    Unmoved s.shared s'.shared := by
  cases step_cases hs with
  | begins hb =>
    exact ⟨hb.closing, hb.state, Nat.le_of_eq hb.length, hb.detached, hb.hung, hb.connected,
      hb.disconnects, hb.traversals, hb.frees⟩
  | consume => exact ⟨rfl, rfl, Nat.sub_le _ _, rfl, rfl, rfl, rfl, rfl, rfl⟩
  | panic => constructor <;> simp
  | move hk => exact absurd hk (ha _ _)
  | spawn hk => exact absurd hk (ha _ _)

theorem facts_step {F : Conn → Pc → Prop} (hs : step h s a = some s')
    (mono : ∀ {c c' p}, Later c c' → F c p → F c' p)
    (begins : ∀ k p c, Begins s a k p c → F c p)
    (panic : ∀ k, a = .panic k → F s.shared .panicUnlock)
    (next : ∀ k j m, a = .run k j → next h s.shared k j (s.pc k) = some m →
      F m.shared m.pc ∧ ∀ t, m.task = some t → F m.shared t)
    (hF : ∀ i, F s.shared (s.pc i)) (i : Nat) : F s'.shared (s'.pc i) := by
  have hl := step_later hs
  cases step_cases hs with
  | @begins k p c hb =>
    rcases eq_or_ne i k with rfl | hik
    · simpa using begins i p c hb
    · simpa [hik] using mono hl (hF i)
  | consume => exact mono hl (hF i)
  | @panic k ha =>
    rcases eq_or_ne i k with rfl | hik
    · simpa using panic i ha
    · simpa [hik] using hF i
  | @move k j c p ha hn =>
    rcases eq_or_ne i k with rfl | hik
    · simpa using (next i j _ ha hn).1
    · simpa [hik] using mono hl (hF i)
  | @spawn k j c p t ha hn _ hjk =>
    obtain ⟨hk, ht⟩ := next k j _ ha hn
    rcases eq_or_ne i j with rfl | hij
    · simpa using ht t rfl
    · rcases eq_or_ne i k with rfl | hik
      · simpa [hij] using hk
      · simpa [hij, hik] using mono hl (hF i)

theorem pc_stays {i : Nat} (hs : step h s a = some s') (hi : s.pc i ≠ .idle)
    (hrun : ∀ j, a ≠ .run i j) (hpanic : a ≠ .panic i) : s'.pc i = s.pc i := by
  cases step_cases hs with
  | @begins k _ _ hb =>
    have hik : i ≠ k := by
      rintro rfl
      exact hi hb.idle
    simp [hik]
  | consume => rfl
  | @panic k ha =>
    have hik : i ≠ k := by
      rintro rfl
      exact hpanic ha
    simp [hik]
  | @move k j _ _ ha =>
    have hik : i ≠ k := by
      rintro rfl
      exact hrun j ha
    simp [hik]
  | @spawn k j _ _ _ ha _ _ _ hj =>
    have hik : i ≠ k := by
      rintro rfl
      exact hrun j ha
    have hij : i ≠ j := by
      rintro rfl
      exact hi hj
    simp [hik, hij]

theorem run_pc {k j : Nat} (hs : step h s (.run k j) = some s') :
    ∃ m, next h s.shared k j (s.pc k) = some m ∧ s'.shared = m.shared ∧ s'.pc k = m.pc ∧
      ∀ t, m.task = some t → s'.pc j = t := by
  obtain ⟨c, p, hn, rfl⟩ | ⟨c, p, t, hn, -, hj, -, rfl⟩ := State.run_cases hs
  · exact ⟨_, hn, rfl, by simp, by simp⟩
  · exact ⟨_, hn, rfl, by simp [hj.symm], by simp⟩

theorem witness_step {W : Pc → Bool} {i : Nat} (hs : step h s a = some s')
    (hidle : W .idle = false) (hi : W (s.pc i)) :
    (∃ k, W (s'.pc k)) ∨ a = .panic i ∨ ∃ j m, a = .run i j ∧
      next h s.shared i j (s.pc i) = some m ∧ s'.shared = m.shared ∧ W m.pc = false ∧
      ∀ t, m.task = some t → W t = false := by
  have hne : s.pc i ≠ .idle := by
    intro h0
    simp [h0, hidle] at hi
  by_cases hp : a = .panic i
  · exact .inr (.inl hp)
  by_cases hr : ∃ j, a = .run i j
  · obtain ⟨j, rfl⟩ := hr
    obtain ⟨m, hn, hsh, hpc, ht⟩ := run_pc hs
    by_cases hout : W m.pc = false ∧ ∀ t, m.task = some t → W t = false
    · exact .inr (.inr ⟨j, m, rfl, hn, hsh, hout⟩)
    · left
      by_contra hno
      simp only [not_exists, Bool.not_eq_true] at hno
      exact hout ⟨hpc ▸ hno i, fun t he => ht t he ▸ hno j⟩
  · exact .inl ⟨i, pc_stays hs hne (fun j ha => hr ⟨j, ha⟩) hp ▸ hi⟩

end Facts

end Netpoll.Connection
