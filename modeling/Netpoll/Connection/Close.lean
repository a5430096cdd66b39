import Netpoll.Connection.LifecycleLaws

namespace Netpoll.Connection

open Netpoll.Lib.Threads Netpoll.Lib.Transition

variable {h : Handlers} {onRequest : Bool} {s s' : System} {a : Label}

def Pc.closed : Pc → Bool
  | .discLoad | .discSet | .discRunFree | .discState | .discLock | .discCas | .discRun
  | .discUnlock | .hupCallback | .force | .ccLock _ | .ccDetach _ | .ccLoad | .ccRun
  | .finStop | .finFree | .finFd | .finBuffer | .relock _ => true
  | .test closedBy _ => closedBy ≠ .none
  | _ => false

theorem Pc.closed_of_entry {p : Pc} (h : p.entry) : p.closed = false := by
  cases p <;> first | rfl | cases h

theorem next_closed {c : Conn} {k j : Nat} {p : Pc} {m : Move Conn Pc}
    (hn : next h c k j p = some m) (hg : p.recoverActive c)
    (hp : p.closed → c.closing ≠ .none) :
    (m.pc.closed → m.shared.closing ≠ .none) ∧
      ∀ t, m.task = some t → t.closed → m.shared.closing ≠ .none := by
  have htask : ∀ t, m.task = some t → t.closed → m.shared.closing ≠ .none := by
    intro t ht
    obtain ⟨conn, req, rfl⟩ := next_task hn ht
    simp [Pc.closed]
  refine ⟨?_, htask⟩
  clear htask
  cases p
  all_goals
    simp only [next, Pc.return] at hn
    (try split_ifs at hn) <;> cases hn
  all_goals simp_all [Pc.closed, Pc.recoverActive]

theorem closed_step (hs : step h s a = some s') (hg : a.meets Pc.recoverActive s)
    (hc : ∀ i, (s.pc i).closed → s.shared.closing ≠ .none) (i : Nat) :
    (s'.pc i).closed → s'.shared.closing ≠ .none := by
  refine facts_step (F := fun c p => p.closed → c.closing ≠ .none) hs ?_ ?_ ?_ ?_ hc i
  · exact fun hl hp h => hl.closing (hp h)
  · exact fun k p c hb hp => by simp [Pc.closed_of_entry hb.entry] at hp
  · simp [Pc.closed]
  · intro k j m ha hn
    subst ha
    exact next_closed hn hg (hc k)

def Pc.willClose (handled : Bool) : Pc → Bool
  | .discLoad | .discSet | .discRunFree | .discState | .discLock | .discCas | .discRun
  | .discUnlock | .hupCallback => handled
  | .closeBy | .force | .ccLock _ | .recheck _ | .relock _ | .panicActive => true
  | p => p.holds

def CloseDue (h : Handlers) (c : Conn) : Prop :=
  c.closing = .user ∨ c.closing = .poller ∧ (h.onConnect ∨ c.onRequest)

theorem Pc.willClose_of_holds {handled : Bool} {p : Pc} (hp : p.holds) :
    p.willClose handled := by
  cases p <;> first | rfl | cases hp

theorem next_willClose {c : Conn} {k j : Nat} {p : Pc} {m : Move Conn Pc}
    (hn : next h c k j p = some m) (hp : p.willClose (h.onConnect || c.onRequest)) :
    m.pc.willClose (h.onConnect || c.onRequest) ∨
      c.processing.isSome ∧ p.holds = false ∨ p.traversing ∨ c.closing = .none := by
  cases p
  all_goals
    simp only [next, Pc.return] at hn
    (try split_ifs at hn) <;> cases hn
  all_goals first
    | exact .inl hp
    | simp_all [Pc.willClose, Pc.holds, Pc.traversing]

theorem next_onRequest {c : Conn} {k j : Nat} {p : Pc} {m : Move Conn Pc}
    (hn : next h c k j p = some m) : m.shared.onRequest = c.onRequest := by
  cases p
  all_goals
    simp only [next] at hn
    (try split_ifs at hn) <;> cases hn
  all_goals rfl

/-- Handlers are installed by `init` and do not panic. -/
def Label.installed : Label → Bool
  | .panic _ | .setOnRequest _ => false
  | _ => true

theorem step_onRequest (ha : a.installed) (hs : step h s a = some s') :
    s'.shared.onRequest = s.shared.onRequest := by
  cases step_cases hs with
  | begins hb =>
    refine hb.onRequest.resolve_right ?_
    rintro ⟨k, rfl⟩
    simp [Label.installed] at ha
  | consume => rfl
  | panic => rfl
  | move _ hn => exact next_onRequest hn
  | spawn _ hn => exact next_onRequest hn

theorem next_due {c : Conn} {k j : Nat} {p : Pc} {m : Move Conn Pc}
    (hn : next h c k j p = some m) (hd : CloseDue h m.shared) :
    CloseDue h c ∨ m.pc.willClose (h.onConnect || c.onRequest) := by
  cases p
  all_goals
    simp only [next] at hn
    (try split_ifs at hn) <;> cases hn
  all_goals first
    | exact .inl hd
    | simp_all [CloseDue, Pc.willClose]

def DueMet (h : Handlers) (s : System) : Prop :=
  CloseDue h s.shared → s.shared.traversals = 1 ∨
    ∃ i, (s.pc i).willClose (h.onConnect || s.shared.onRequest)

theorem DueMet.step (hd : DueMet h s) (hl : Locked s) (hl' : Locked s') (ha : a.installed)
    (hs : step h s a = some s') : DueMet h s' := by
  intro hdue
  have hreq := step_onRequest ha hs
  have hdone : s.shared.traversals = 1 → s'.shared.traversals = 1 := by
    intro ht
    have := (step_later hs).traversals
    have := hl'.begun_le
    omega
  by_cases hold : CloseDue h s.shared
  · obtain ht | ⟨i, hi⟩ := hd hold
    · exact .inl (hdone ht)
    rw [hreq]
    obtain hw | rfl | ⟨j, m, rfl, hn, -, hout, -⟩ := witness_step hs rfl hi
    · exact .inr hw
    · simp [Label.installed] at ha
    obtain hw | ⟨hsome, hfree⟩ | htr | hnone := next_willClose hn hi
    · simp [hw] at hout
    · -- the attempt on the lock fails: its owner is on the way
      obtain ⟨o, ho⟩ := Option.isSome_iff_exists.mp hsome
      obtain hh | ht := hl.owner o ho
      · have hoi : i ≠ o := by
          rintro rfl
          simp [hfree] at hh
        exact .inr ⟨o, by simpa [pc_stays hs (Pc.not_idle_of_holds hh) (by simp [hoi]) (by simp)]
          using Pc.willClose_of_holds hh⟩
      · exact .inl (hdone ht)
    · exact .inl (hdone (hl.during i htr))
    · simp [CloseDue, hnone] at hold
  · -- the step makes the close due, so it is an access to `closing`
    cases a with
    | run k j =>
      obtain ⟨m, hn, hsh, hpc, -⟩ := run_pc hs
      rw [hsh] at hdue
      exact .inr ⟨k, by simpa [hreq, hpc] using (next_due hn hdue).resolve_left hold⟩
    | _ =>
      refine absurd ?_ hold
      simpa [CloseDue, hreq, (unmoved_of_not_run hs (by simp)).closing] using hdue

def Pc.panicking : Pc → Bool
  | .panicUnlock | .panicActive => true
  | _ => false

theorem Pc.panicking_of_entry {p : Pc} (h : p.entry) : p.panicking = false := by
  cases p <;> first | rfl | cases h

theorem next_panicking {c : Conn} {k j : Nat} {p : Pc} {m : Move Conn Pc}
    (hn : next h c k j p = some m) (hp : p.panicking = false) :
    m.pc.panicking = false ∧ ∀ t, m.task = some t → t.panicking = false := by
  have htask : ∀ t, m.task = some t → t.panicking = false := by
    intro t ht
    obtain ⟨conn, req, rfl⟩ := next_task hn ht
    simp [Pc.panicking]
  refine ⟨?_, htask⟩
  clear htask
  cases p
  all_goals
    simp only [next, Pc.return] at hn
    (try split_ifs at hn) <;> cases hn
  all_goals simp_all [Pc.panicking]

/-- No handler panics. -/
def Label.calm : Label → Bool
  | .panic _ => false
  | _ => true

theorem Label.calm_of_installed {a : Label} (ha : a.installed) : a.calm := by
  cases a <;> first | rfl | cases ha

theorem not_panicking (hr : Reach (step h) (fun _ a => a.calm) (init onRequest) s)
    (i : Nat) : (s.pc i).panicking = false := by
  refine hr.invariant (I := fun s => ∀ i, (s.pc i).panicking = false) ?_ ?_ i
  · exact fun _ => rfl
  · intro s a s' hi ha hs
    refine facts_step (F := fun _ p => p.panicking = false) hs (fun _ hp => hp) ?_ ?_ ?_ hi
    · exact fun k p c hb => Pc.panicking_of_entry hb.entry
    · rintro k rfl
      simp [Label.calm] at ha
    · exact fun k j m _ hn => next_panicking hn (hi k)

theorem Pc.recoverActive_of_not_panicking {p : Pc} (hp : p.panicking = false) (c : Conn) :
    p.recoverActive c := by
  cases p <;> first | rfl | cases hp

theorem recoverActive_of_calm (hr : Reach (step h) (fun _ a => a.calm) (init onRequest) s)
    (a : Label) : a.meets Pc.recoverActive s := by
  cases a with
  | run k j => exact Pc.recoverActive_of_not_panicking (not_panicking hr k) s.shared
  | _ => rfl

theorem locked_of_reach {P : System → Label → Prop}
    (hP : ∀ s a, Reach (step h) P (init onRequest) s → P s a → a.meets Pc.recoverActive s)
    (hr : Reach (step h) P (init onRequest) s) : Locked s :=
  (hr.mono hP).invariant (Locked.init onRequest) (fun _ _ _ hl hg hs => hl.step hg hs)

theorem locked_of_calm (hr : Reach (step h) (fun _ a => a.calm) (init onRequest) s) : Locked s :=
  locked_of_reach (fun _ a hr _ => recoverActive_of_calm hr a) hr

theorem calm_of_installed (hr : Reach (step h) (fun _ a => a.installed) (init onRequest) s) :
    Reach (step h) (fun _ a => a.calm) (init onRequest) s :=
  hr.mono fun _ _ _ ha => Label.calm_of_installed ha

theorem locked_of_installed
    (hr : Reach (step h) (fun _ a => a.installed) (init onRequest) s) : Locked s :=
  locked_of_calm (calm_of_installed hr)

theorem dueMet_of_installed
    (hr : Reach (step h) (fun _ a => a.installed) (init onRequest) s) :
    DueMet h s ∧ s.shared.onRequest = onRequest := by
  induction hr with
  | refl => simp [DueMet, CloseDue, init]
  | @tail s a s' hr ha hs ih =>
    refine ⟨ih.1.step (locked_of_installed hr) (locked_of_installed (hr.tail ha hs)) ha hs, ?_⟩
    exact (step_onRequest ha hs).trans ih.2

/-- The close callbacks run at most once, and when nothing is left to do they
have run after a user's close, and after the poller's close of a connection with
a handler. -/
theorem closeCallbacks_exactly_once (h : Handlers) (onRequest : Bool) {s : System}
    (hr : Reach (step h) (fun _ a => a.installed) (init onRequest) s) :
    s.shared.traversals ≤ 1 ∧
      ((∀ i, s.pc i = .idle) →
        s.shared.closing = .user ∨ s.shared.closing = .poller ∧ (h.onConnect ∨ onRequest) →
        s.shared.traversals = 1) := by
  refine ⟨(locked_of_installed hr).begun_le, fun hidle hdue => ?_⟩
  obtain ⟨hmet, hreq⟩ := dueMet_of_installed hr
  obtain ht | ⟨i, hi⟩ := hmet (by simpa [CloseDue, hreq] using hdue)
  · exact ht
  · simp [hidle i, Pc.willClose, Pc.holds] at hi

theorem closeCallbacks_exactly_once_hup :
    ∃ s, Reach (step ⟨false, false⟩) (fun _ a => a.installed) (init true) s ∧
      (∀ i, s.pc i = .idle) ∧ s.shared.closing = .poller ∧ s.shared.traversals = 1 := by
  have hrun : ∃ s, runs (guarded (step ⟨false, false⟩) fun _ a => a.installed)
      (init true)
      (List.flatten [[.hup, .run 0 0, .run 0 0, .onhups], List.replicate 11 (.run 2 0)]) = some s ∧
      (∀ i, s.pc i = .idle) ∧ s.shared.closing = .poller := by
    refine ⟨_, rfl, fun i => ?_, rfl⟩
    simp [State.enter, init]
  obtain ⟨s, hs, hidle, hc⟩ := hrun
  have hr := Reach.of_runs hs
  exact ⟨s, hr, hidle, hc, (closeCallbacks_exactly_once _ _ hr).2 hidle (.inr ⟨hc, .inr rfl⟩)⟩

def Pc.pollerFirst : Pc → Conn → Bool
  | .ccLock needDetach, c => needDetach || c.processing.isSome || c.hung
  | .relock _, c => c.processing.isSome || c.hung
  | _, _ => true

def Pc.detached : Pc → Bool
  | .hupClose | .discLoad | .discSet | .discRunFree | .discState | .discLock | .discCas
  | .discRun | .discUnlock | .hupCallback => true
  | .ccDetach needDetach => !needDetach
  | .ccLoad | .ccRun | .finStop | .finFree | .finFd | .finBuffer => true
  | .test closedBy _ => closedBy == .poller
  | _ => false

theorem Pc.eq_hupClose_of_entry {p : Pc} (h : p.entry) (hd : p.detached) : p = .hupClose := by
  cases p <;> first | rfl | exact Bool.noConfusion h | exact Bool.noConfusion hd

structure Detached (s : System) : Prop where
  hung : s.shared.hung = true → 0 < s.shared.detached
  poller : s.shared.closing = .poller → 0 < s.shared.detached
  frees : 0 < s.shared.frees → 0 < s.shared.traversals
  pc : ∀ i, (s.pc i).detached → 0 < s.shared.detached

theorem next_detached {c : Conn} {k j : Nat} {p : Pc} {m : Move Conn Pc}
    (hn : next h c k j p = some m) (hg : p.recoverActive c)
    (hf : p.pollerFirst c)
    (hung : c.hung = true → 0 < c.detached) (poller : c.closing = .poller → 0 < c.detached)
    (hfree : p.holds → p.traversing = false → c.frees = 0)
    (hp : p.detached → 0 < c.detached) :
    (m.shared.hung = true → 0 < m.shared.detached) ∧
      (m.shared.closing = .poller → 0 < m.shared.detached) ∧
      (m.pc.detached → 0 < m.shared.detached) ∧
      ∀ t, m.task = some t → t.detached → 0 < m.shared.detached := by
  have htask : ∀ t, m.task = some t → t.detached → 0 < m.shared.detached := by
    intro t ht
    obtain ⟨conn, req, rfl⟩ := next_task hn ht
    simp [Pc.detached]
  suffices hpc : (m.shared.hung = true → 0 < m.shared.detached) ∧
      (m.shared.closing = .poller → 0 < m.shared.detached) ∧
      (m.pc.detached → 0 < m.shared.detached) from ⟨hpc.1, hpc.2.1, hpc.2.2, htask⟩
  clear htask
  cases p
  case test closedBy _ =>
    cases closedBy <;> simp only [next] at hn <;> split_ifs at hn <;> cases hn <;>
      simp_all [Pc.detached]
  case ccLock needDetach =>
    cases needDetach <;> simp only [next] at hn <;> split_ifs at hn <;> cases hn <;>
      simp_all [Pc.detached, Pc.pollerFirst]
  all_goals
    simp only [next, Pc.return] at hn
    (try split_ifs at hn) <;> cases hn
  all_goals first
    | exact ⟨hung, poller, hp⟩
    | simp_all [Pc.detached, Pc.recoverActive, Pc.pollerFirst, Conn.polled, Pc.holds, Pc.traversing]

theorem next_frees {c : Conn} {k j : Nat} {p : Pc} {m : Move Conn Pc}
    (hn : next h c k j p = some m) : m.shared.frees = c.frees ∨ p.traversing := by
  cases p
  all_goals
    simp only [next] at hn
    (try split_ifs at hn) <;> cases hn
  all_goals simp [Pc.traversing]

theorem Detached.step (hd : Detached s) (hl : Locked s) (hg : a.meets Pc.recoverActive s)
    (hf : a.meets Pc.pollerFirst s) (hs : step h s a = some s') : Detached s' := by
  have hnext : ∀ k j m, a = .run k j → next h s.shared k j (s.pc k) = some m →
      (m.shared.hung = true → 0 < m.shared.detached) ∧
        (m.shared.closing = .poller → 0 < m.shared.detached) ∧
        (m.pc.detached → 0 < m.shared.detached) ∧
        ∀ t, m.task = some t → t.detached → 0 < m.shared.detached := by
    intro k j m ha hn
    subst ha
    refine next_detached hn hg hf hd.hung hd.poller (fun hk ht => ?_) (hd.pc k)
    have := hl.before k hk ht
    have := hd.frees
    omega
  have hpc : ∀ i, (s'.pc i).detached → 0 < s'.shared.detached := by
    refine facts_step (F := fun c p => p.detached → 0 < c.detached) hs ?_ ?_ ?_ ?_ hd.pc
    · exact fun hlater hp h => Nat.lt_of_lt_of_le (hp h) hlater.detached
    · intro k p c hb hp
      rw [hb.detached]
      exact hd.hung (hb.onhups (Pc.eq_hupClose_of_entry hb.entry hp))
    · simp [Pc.detached]
    · exact fun k j m ha hn => (hnext k j m ha hn).2.2
  cases a with
  | run k j =>
    obtain ⟨m, hn, hsh, -⟩ := run_pc hs
    obtain ⟨hhung, hpoller, -⟩ := hnext k j m rfl hn
    refine ⟨hsh ▸ hhung, hsh ▸ hpoller, fun hpos => ?_, hpc⟩
    have hmono := (next_later hn).traversals
    rw [hsh] at hpos ⊢
    obtain he | ht := next_frees hn
    · have := hd.frees (he ▸ hpos)
      omega
    · have := hl.during k ht
      omega
  | _ =>
    have hu := unmoved_of_not_run hs (by simp)
    refine ⟨?_, ?_, ?_, hpc⟩
    · rw [hu.hung, hu.detached]
      exact hd.hung
    · rw [hu.closing, hu.detached]
      exact hd.poller
    · rw [hu.frees, hu.traversals]
      exact hd.frees

theorem detached_of_reach {P : System → Label → Prop}
    (hP : ∀ s a, Reach (step h) P (init onRequest) s → P s a → a.meets Pc.recoverActive s)
    (hf : ∀ s a, P s a → a.meets Pc.pollerFirst s) (hr : Reach (step h) P (init onRequest) s) :
    Detached s := by
  induction hr with
  | refl => constructor <;> simp [init, Pc.detached]
  | tail hr ha hs ih => exact ih.step (locked_of_reach hP hr) (hP _ _ hr ha) (hf _ _ ha) hs

/-- The operator is detached before `Free`, in every run in which the close
callbacks of a second closer or of the end-of-task check come after the poller
has hung up. -/
theorem detach_before_free (h : Handlers) (onRequest : Bool) {s : System}
    (hr : Reach (step h) (fun s a => a.calm && a.meets Pc.pollerFirst s) (init onRequest) s)
    (i : Nat) (hi : s.pc i = .finFree) : 0 < s.shared.detached := by
  have hd : Detached s := by
    refine detached_of_reach (fun s a hr _ => recoverActive_of_calm (hr.mono ?_) a) ?_ hr
    · exact fun _ _ _ ha => (Bool.and_eq_true_iff.mp ha).1
    · exact fun _ _ ha => (Bool.and_eq_true_iff.mp ha).2
  exact hd.pc i (by simp [hi, Pc.detached])

theorem detach_before_free_hup :
    ∃ s, Reach (step ⟨false, false⟩) (fun s a => a.calm && a.meets Pc.pollerFirst s)
      (init false) s ∧ s.pc 4 = .finFree ∧ 0 < s.shared.detached := by
  have hrun : ∃ s, runs (guarded (step ⟨false, false⟩) fun s a =>
      a.calm && a.meets Pc.pollerFirst s) (init false)
      (List.flatten [[.hup, .run 0 0, .run 0 0, .close 3, .run 3 0, .close 4],
        List.replicate 7 (.run 4 0)]) = some s ∧ s.pc 4 = .finFree :=
    ⟨_, rfl, rfl⟩
  obtain ⟨s, hs, hpc⟩ := hrun
  have hr := Reach.of_runs hs
  exact ⟨s, hr, hpc, detach_before_free _ _ hr 4 hpc⟩

/-- A `Close` from outside loses the lock to a task that has already read
`closing`; the task's own second look then frees an operator that is still
registered. -/
theorem free_without_detach :
    ¬ ∀ (h : Handlers) (onRequest : Bool) (s : System),
      Reach (step h) (fun _ a => a.calm) (init onRequest) s →
      ∀ i, s.pc i = .finFree → 0 < s.shared.detached := by
  intro hall
  have hrun : ∃ s, runs (guarded (step ⟨false, false⟩) fun _ a => a.calm) (init true)
      (List.flatten [[.readable 1], List.replicate 6 (.run 0 3),
        [.run 3 0, .run 3 0, .consume 1], List.replicate 3 (.run 3 0),
        [.close 4, .run 4 0, .run 4 0], List.replicate 7 (.run 3 0)]) = some s ∧ s.pc 3 = .finFree ∧
        s.shared.detached = 0 :=
    ⟨_, rfl, rfl, rfl⟩
  obtain ⟨s, hs, hpc, hd⟩ := hrun
  have hr := Reach.of_runs hs
  have := hall _ _ s hr 3 hpc
  omega

/-- A task whose handler panics while the connection is active leaves the close
to `Close`: the callbacks run at most once and no handler runs beside or after
them.  With the poller first, the operator is detached before `Free`. -/
theorem panic_close_once (h : Handlers) (onRequest : Bool) {s : System}
    (hr : Reach (step h) (fun s a => a.meets Pc.recoverActive s) (init onRequest) s) :
    s.shared.traversals ≤ 1 ∧ (∀ i, (s.pc i).handling → s.shared.traversals = 0) ∧
      (Reach (step h) (fun s a => a.meets Pc.recoverActive s && a.meets Pc.pollerFirst s)
          (init onRequest) s →
        ∀ i, s.pc i = .finFree → 0 < s.shared.detached) := by
  have hl : Locked s := locked_of_reach (fun _ _ _ ha => ha) hr
  refine ⟨hl.begun_le, fun i hi => ?_, fun hf i hi => ?_⟩
  · obtain ⟨hh, ht⟩ := Pc.holds_of_handling hi
    exact hl.before i hh ht
  · have hd := detached_of_reach (fun _ _ _ ha => (Bool.and_eq_true_iff.mp ha).1)
      (fun _ _ ha => (Bool.and_eq_true_iff.mp ha).2) hf
    exact hd.pc i (by simp [hi, Pc.detached])

theorem panic_close_once_active :
    ∃ s, Reach (step ⟨false, false⟩) (fun s a => a.meets Pc.recoverActive s) (init true) s ∧
      s.pc 3 = .finFree ∧ s.shared.traversals ≤ 1 ∧ 0 < s.shared.detached := by
  have hrun : ∃ s, runs (guarded (step ⟨false, false⟩) fun s a =>
      a.meets Pc.recoverActive s &&
      a.meets Pc.pollerFirst s) (init true)
      (List.flatten [[.readable 1], List.replicate 6 (.run 0 3), [.run 3 0, .run 3 0, .panic 3],
        List.replicate 8 (.run 3 0)]) = some s ∧ s.pc 3 = .finFree :=
    ⟨_, rfl, rfl⟩
  obtain ⟨s, hs, hpc⟩ := hrun
  have hr := Reach.of_runs hs
  have hr' := hr.mono (fun _ _ _ ha => (Bool.and_eq_true_iff.mp ha).1)
  obtain ⟨hle, -, hd⟩ := panic_close_once _ _ hr'
  exact ⟨s, hr', hpc, hle, hd hr 3 hpc⟩

/-- `OnRequest` closes the connection and panics: the deferred handler runs the
callbacks without the lock, and a second `Close` runs them again. -/
theorem panic_closes_twice :
    ¬ ∀ (h : Handlers) (onRequest : Bool) (s : System),
      Reach (step h) (fun _ _ => True) (init onRequest) s →
      s.shared.traversals ≤ 1 ∧ (∀ i, (s.pc i).handling → s.shared.traversals = 0) ∧
        (s.shared.closing = .user → ∀ i, s.pc i = .finFree → 0 < s.shared.detached) := by
  intro hall
  have hrun : ∃ s, runs (guarded (step ⟨false, false⟩) fun _ _ => true) (init true)
      (List.flatten [[.readable 1], List.replicate 6 (.run 0 3),
        [.run 3 0, .run 3 0, .close 4, .run 4 0, .run 4 0, .panic 3],
        List.replicate 9 (.run 3 0), [.close 4], List.replicate 5 (.run 4 0)]) = some s ∧
          s.shared.traversals = 2 :=
    ⟨_, rfl, rfl⟩
  obtain ⟨s, hs, ht⟩ := hrun
  have hr := (Reach.of_runs hs).mono (fun _ _ _ _ => trivial)
  have := (hall _ _ s hr).1
  omega

end Netpoll.Connection
