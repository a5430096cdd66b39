import Netpoll.Connection.Close

namespace Netpoll.Connection

open Netpoll.Lib.Threads Netpoll.Lib.Transition

variable {h : Handlers} {onRequest : Bool} {s s' : System} {a : Label} {c c' : Conn} {k j : Nat}
  {p q : Pc} {m : Move Conn Pc}

/-- The goroutine is about to use `inputBuffer`, `outputBuffer` or
`outputBarrier`, or runs a handler that may. -/
def Pc.touches : Pc → Bool
  | .inputs _ | .inputAck _ | .outputs | .outputAck => true
  | .flushRun => true
  | .onConnect _ | .start _ | .first _ | .test .. | .more _ => true
  | .relen req => req
  | _ => false

/-- A task with an `OnRequest` has given up its lock and not yet looked at the length again. -/
def Pc.rechecks : Pc → Bool
  | .recheck req | .relock req | .relen req => req
  | _ => false

def Pc.flushes : Pc → Bool
  | .flushRun | .flushUnlock => true
  | _ => false

def Pc.polls : Pc → Bool
  | .inputs _ | .inputAck _ | .outputs | .outputAck | .appendHup | .done => true
  | .reqLoad poll | .reqState poll | .reqLock poll => poll
  | _ => false

def Pc.stopped : Pc → Bool
  | .finFree | .finFd | .finBuffer => true
  | _ => false

def Pc.freed : Pc → Bool
  | .finFd | .finBuffer => true
  | _ => false

inductive FenceMove (c : Conn) : Pc → Conn → Pc → Prop
  | keep {p c' p'} : c'.flushing = c.flushing → c'.operator = c.operator → c'.frees = c.frees →
      (p'.flushes → p.flushes) → (p'.polls → p.polls) → (p'.stopped → p.stopped) →
      (p'.freed → p.freed) → FenceMove c p c' p'
  | lock : c.flushing = .unlocked → FenceMove c .flushLock { c with flushing := .locked } .flushRun
  | unlock : FenceMove c .flushUnlock { c with flushing := .unlocked } .idle
  | stop : c.flushing ≠ .locked → FenceMove c .finStop { c with flushing := .stopped } .finFree
  | done : FenceMove c .done { c with operator := .inuse } .idle
  | free : c.operator ≠ .doing →
      FenceMove c .finFree { c with operator := .unused, frees := c.frees + 1 } .finFd

theorem next_fence (hn : next h c k j p = some m) : FenceMove c p m.shared m.pc := by
  cases p
  all_goals
    simp only [next, Pc.return] at hn
    (try split_ifs at hn) <;> cases hn
  all_goals first
    | exact .lock ‹_›
    | exact .unlock
    | exact .stop ‹_›
    | exact .done
    | exact .free ‹_›
    | exact .keep rfl rfl rfl id id id id
    | refine .keep rfl rfl rfl ?_ ?_ ?_ ?_ <;>
        simp_all [Pc.flushes, Pc.polls, Pc.stopped, Pc.freed]

theorem next_task_unfenced {t : Pc} (hn : next h c k j p = some ⟨c', q, some t⟩) :
    t.flushes = false ∧ t.polls = false ∧ t.stopped = false ∧ t.freed = false := by
  obtain ⟨conn, req, rfl⟩ := next_task hn rfl
  exact ⟨rfl, rfl, rfl, rfl⟩

structure Fenced (s : System) : Prop where
  flush : ∀ i, (s.pc i).flushes → s.shared.flushing = .locked
  one : s.Unique Pc.flushes
  poll : ∀ i, (s.pc i).polls → i = 0 ∧ s.shared.operator = .doing
  stop : ∀ i, (s.pc i).stopped → s.shared.flushing = .stopped
  free : ∀ i, (s.pc i).freed → 0 < s.shared.frees
  closed : 0 < s.shared.frees → s.shared.flushing = .stopped ∧ s.shared.operator = .unused

namespace Fenced

theorem enter (hf : Fenced s) (h₁ : c.flushing = s.shared.flushing)
    (h₂ : c.operator = s.shared.operator) (h₃ : c.frees = s.shared.frees)
    (hfl : p.flushes → (s.pc k).flushes) (hpo : p.polls → (s.pc k).polls)
    (hst : p.stopped → (s.pc k).stopped) (hfr : p.freed → (s.pc k).freed) :
    Fenced (s.enter c k p) where
  flush i hi := by
    rw [State.enter_shared, h₁]
    rcases eq_or_ne i k with rfl | hik
    · exact hf.flush i (hfl (by simpa using hi))
    · exact hf.flush i (by simpa [hik] using hi)
  one := hf.one.enter hfl
  poll i hi := by
    rw [State.enter_shared, h₂]
    rcases eq_or_ne i k with rfl | hik
    · exact hf.poll i (hpo (by simpa using hi))
    · exact hf.poll i (by simpa [hik] using hi)
  stop i hi := by
    rw [State.enter_shared, h₁]
    rcases eq_or_ne i k with rfl | hik
    · exact hf.stop i (hst (by simpa using hi))
    · exact hf.stop i (by simpa [hik] using hi)
  free i hi := by
    rw [State.enter_shared, h₃]
    rcases eq_or_ne i k with rfl | hik
    · exact hf.free i (hfr (by simpa using hi))
    · exact hf.free i (by simpa [hik] using hi)
  closed := by
    rw [State.enter_shared, h₁, h₂, h₃]
    exact hf.closed

theorem call (hf : Fenced s) (h₁ : c.flushing = s.shared.flushing)
    (h₂ : c.operator = s.shared.operator) (h₃ : c.frees = s.shared.frees)
    (hp : p.flushes = false ∧ p.polls = false ∧ p.stopped = false ∧ p.freed = false) :
    Fenced (s.enter c k p) :=
  hf.enter h₁ h₂ h₃ (by simp [hp]) (by simp [hp]) (by simp [hp]) (by simp [hp])

theorem not_flushes (hf : Fenced s) (hl : s.shared.flushing ≠ .locked) (i : Nat) :
    (s.pc i).flushes = false := by
  by_contra hi
  exact hl (hf.flush i (by simpa using hi))

theorem not_polls (hf : Fenced s) (ho : s.shared.operator ≠ .doing) (i : Nat) :
    (s.pc i).polls = false := by
  by_contra hi
  exact ho (hf.poll i (by simpa using hi)).2

theorem of_enter {T : Pc → Bool} {i : Nat} (hp : T p = false) (hi : T ((s.enter c k p).pc i)) :
    i ≠ k ∧ T (s.pc i) := by
  rcases eq_or_ne i k with rfl | hik
  · simp [hp] at hi
  · exact ⟨hik, by simpa [hik] using hi⟩

theorem move (hf : Fenced s) (hm : FenceMove s.shared (s.pc k) c p) : Fenced (s.enter c k p) := by
  generalize hk : s.pc k = q at hm
  cases hm with
  | keep h₁ h₂ h₃ h₄ h₅ h₆ h₇ => exact hf.enter h₁ h₂ h₃ (hk ▸ h₄) (hk ▸ h₅) (hk ▸ h₆) (hk ▸ h₇)
  | lock hu =>
    have hst : ∀ i, (s.pc i).stopped = false := fun i => by
      by_contra hi
      simpa [hu] using hf.stop i (by simpa using hi)
    have hfree : ¬ 0 < s.shared.frees := fun h0 => by simpa [hu] using (hf.closed h0).1
    refine ⟨fun _ _ => rfl, .enter_first (hf.not_flushes (by simp [hu])), fun i hi => ?_,
      fun i hi => ?_, fun i hi => ?_, fun h0 => absurd h0 hfree⟩
    · exact hf.poll i (of_enter (T := Pc.polls) rfl hi).2
    · simpa [hst] using (of_enter (T := Pc.stopped) rfl hi).2
    · exact hf.free i (of_enter (T := Pc.freed) rfl hi).2
  | unlock =>
    have hl : s.shared.flushing = .locked := hf.flush k (by simp [hk, Pc.flushes])
    refine ⟨fun i hi => ?_, hf.one.enter (by simp [Pc.flushes]), fun i hi => ?_, fun i hi => ?_,
      fun i hi => ?_, fun h0 => ?_⟩
    · obtain ⟨hik, hi⟩ := of_enter (T := Pc.flushes) rfl hi
      exact absurd (hf.one i k hi (by simp [hk, Pc.flushes])) hik
    · exact hf.poll i (of_enter (T := Pc.polls) rfl hi).2
    · simpa [hl] using hf.stop i (of_enter (T := Pc.stopped) rfl hi).2
    · exact hf.free i (of_enter (T := Pc.freed) rfl hi).2
    · simpa [hl] using (hf.closed h0).1
  | stop hn =>
    refine ⟨fun i hi => ?_, hf.one.enter (by simp [Pc.flushes]), fun i hi => ?_, fun _ _ => rfl,
      fun i hi => ?_, fun h0 => ⟨rfl, (hf.closed h0).2⟩⟩
    · simpa [hf.not_flushes hn] using (of_enter (T := Pc.flushes) rfl hi).2
    · exact hf.poll i (of_enter (T := Pc.polls) rfl hi).2
    · exact hf.free i (of_enter (T := Pc.freed) rfl hi).2
  | done =>
    obtain ⟨rfl, hd⟩ := hf.poll k (by simp [hk, Pc.polls])
    refine ⟨fun i hi => ?_, hf.one.enter (by simp [Pc.flushes]), fun i hi => ?_, fun i hi => ?_,
      fun i hi => ?_, fun h0 => ?_⟩
    · exact hf.flush i (of_enter (T := Pc.flushes) rfl hi).2
    · obtain ⟨hi0, hi⟩ := of_enter (T := Pc.polls) rfl hi
      exact absurd (hf.poll i hi).1 hi0
    · exact hf.stop i (of_enter (T := Pc.stopped) rfl hi).2
    · exact hf.free i (of_enter (T := Pc.freed) rfl hi).2
    · simpa [hd] using (hf.closed h0).2
  | free hn =>
    have hst : s.shared.flushing = .stopped := hf.stop k (by simp [hk, Pc.stopped])
    refine ⟨fun i hi => ?_, hf.one.enter (by simp [Pc.flushes]), fun i hi => ?_, fun _ _ => hst,
      fun _ _ => Nat.succ_pos _, fun _ => ⟨hst, rfl⟩⟩
    · simpa [hf.not_flushes (by simp [hst])] using (of_enter (T := Pc.flushes) rfl hi).2
    · simpa [hf.not_polls hn] using (of_enter (T := Pc.polls) rfl hi).2

theorem begin (hf : Fenced s) (ho : s.shared.operator = .inuse) (hp : p.flushes = false)
    (hp' : p.stopped = false) (hp'' : p.freed = false) :
    Fenced (s.enter { s.shared with operator := .doing } 0 p) := by
  refine ⟨fun i hi => ?_, hf.one.enter (by simp [hp]), fun i hi => ?_, fun i hi => ?_,
    fun i hi => ?_, fun h0 => ?_⟩
  · exact hf.flush i (of_enter (T := Pc.flushes) hp hi).2
  · refine ⟨?_, rfl⟩
    by_contra hi0
    simp [hi0, hf.not_polls (by simp [ho])] at hi
  · exact hf.stop i (of_enter (T := Pc.stopped) hp' hi).2
  · exact hf.free i (of_enter (T := Pc.freed) hp'' hi).2
  · simpa [ho] using (hf.closed h0).2

theorem step (hf : Fenced s) (hs : step h s a = some s') : Fenced s' := by
  cases a with
  | readable | writable | hup =>
    simp only [Connection.step, Connection.poll] at hs
    split at hs <;> cases hs
    rename_i hg
    exact hf.begin hg.2.2 rfl rfl rfl
  | consume =>
    simp only [Connection.step] at hs
    split at hs <;> cases hs
    exact ⟨hf.flush, hf.one, hf.poll, hf.stop, hf.free, hf.closed⟩
  | panic =>
    simp only [Connection.step] at hs
    split at hs <;> cases hs <;> exact hf.call rfl rfl rfl ⟨rfl, rfl, rfl, rfl⟩
  | run k j =>
    obtain ⟨c, p, hn, rfl⟩ | ⟨c, p, t, hn, -, -, -, rfl⟩ := State.run_cases hs
    · exact hf.move (next_fence hn)
    · exact (hf.move (next_fence hn)).call rfl rfl rfl (next_task_unfenced hn)
  | _ =>
    simp only [Connection.step, Connection.call] at hs
    split at hs <;> cases hs
    exact hf.call rfl rfl rfl ⟨rfl, rfl, rfl, rfl⟩

theorem init (onRequest : Bool) : Fenced (init onRequest) := by
  constructor <;> simp [Connection.init, State.Unique, Pc.flushes, Pc.polls, Pc.stopped, Pc.freed]

end Fenced

theorem FenceMove.frees_le (hm : FenceMove c p c' q) : c.frees ≤ c'.frees := by
  cases hm with
  | free => exact Nat.le_succ _
  | keep _ _ hf => exact Nat.le_of_eq hf.symm
  | _ => exact Nat.le_refl _

theorem frees_mono (hs : step h s a = some s') : s.shared.frees ≤ s'.shared.frees := by
  cases a with
  | run k j =>
    obtain ⟨m, hn, hsh, -⟩ := run_pc hs
    exact hsh ▸ (next_fence hn).frees_le
  | _ => exact Nat.le_of_eq (unmoved_of_not_run hs (by simp)).frees.symm

theorem Pc.touches_cases (ht : p.touches) :
    p.polls ∨ p.flushes ∨ (p.holds ∧ p.traversing = false) ∨ p.rechecks := by
  cases p <;> simp_all [Pc.touches, Pc.polls, Pc.flushes, Pc.holds, Pc.traversing, Pc.rechecks]

theorem next_rechecks (hn : next h c k j p = some m) (hl : m.pc.rechecks) :
    p.rechecks ∨ p.holds ∧ p.traversing = false := by
  cases p
  all_goals
    simp only [next, Pc.return] at hn
    (try split_ifs at hn) <;> cases hn
  all_goals simp_all [Pc.rechecks, Pc.holds, Pc.traversing]

section Closed

variable (hr : Reach (step h) (fun _ a => a.calm) (init onRequest) s)
include hr

theorem fenced_of_calm : Fenced s :=
  hr.invariant (Fenced.init onRequest) fun _ _ _ hf _ hs => hf.step hs

theorem traversed (hk : s.pc k = .finBuffer) (hr' : Reach (step h) (fun _ a => a.calm) s s') :
    0 < s'.shared.traversals := by
  have h0 : s.shared.traversals = 1 := (locked_of_calm hr).during k (by simp [hk, Pc.traversing])
  exact hr'.invariant (I := fun t => 0 < t.shared.traversals) (by omega)
    fun _ _ _ hi _ hs => Nat.lt_of_lt_of_le hi (step_later hs).traversals

theorem rechecks_of_touches (hk : s.pc k = .finBuffer)
    (hr' : Reach (step h) (fun _ a => a.calm) s s') {i : Nat} (hi : (s'.pc i).touches) :
    (s'.pc i).rechecks := by
  have hall := hr.trans hr'
  have hfree : 0 < s'.shared.frees :=
    hr'.invariant (I := fun t => 0 < t.shared.frees)
      ((fenced_of_calm hr).free k (by simp [hk, Pc.freed]))
      fun _ _ _ hi _ hs => Nat.lt_of_lt_of_le hi (frees_mono hs)
  obtain ⟨hst, hop⟩ := (fenced_of_calm hall).closed hfree
  obtain hp | hp | ⟨hh, ht⟩ | hp := Pc.touches_cases hi
  · simp [(fenced_of_calm hall).not_polls (by simp [hop])] at hp
  · simp [(fenced_of_calm hall).not_flushes (by simp [hst])] at hp
  · have := (locked_of_calm hall).before i hh ht
    have := traversed hr hk hr'
    omega
  · exact hp

theorem not_rechecks (hk : s.pc k = .finBuffer) (hs : ∀ i, (s.pc i).rechecks = false)
    (hr' : Reach (step h) (fun _ a => a.calm) s s') (i : Nat) : (s'.pc i).rechecks = false := by
  induction hr' generalizing i with
  | refl => exact hs i
  | @tail t a t' hrt ha hst ih =>
    refine facts_step (F := fun _ p => p.rechecks = false) hst (fun _ => id) ?_ (fun _ _ => rfl) ?_
      ih i
    · intro k p c hb
      have he := hb.entry
      cases p <;> first | rfl | simp [Pc.entry] at he
    · intro k' j m _ hn
      refine ⟨?_, fun p hp => ?_⟩
      · by_contra hl
        rcases next_rechecks hn (by simpa using hl) with hp | ⟨hh, ht⟩
        · simp [ih] at hp
        · have := (locked_of_calm (hr.trans hrt)).before k' hh ht
          have := traversed hr hk hrt
          omega
      · obtain ⟨conn, req, rfl⟩ := next_task hn hp
        rfl

theorem touches_of_rechecks (hk : s.pc k = .finBuffer) {i : Nat} (hi : (s.pc i).rechecks) :
    ∃ s', Reach (step h) (fun _ a => a.calm) s s' ∧ (s'.pc i).touches := by
  have goes {s s' : System} {c : Conn} {p : Pc}
    (hs' : Reach (step h) (fun _ a => a.calm) (s.enter c i p) s')
      (hn : next h s.shared i 0 (s.pc i) = some ⟨c, p, none⟩) :
      Reach (step h) (fun _ a => a.calm) s s' := by
    have hstep : step h s (.run i 0) = some (s.enter c i p) := by simp [step, State.run, hn]
    have hfirst : Reach (step h) (fun _ a => a.calm) s (s.enter c i p) := .tail .refl rfl hstep
    exact hfirst.trans hs'
  have hlock : s.shared.processing.isSome := by
    by_contra hf
    have hn : s.shared.processing = none := by simpa using hf
    have := (locked_of_calm hr).free hn
    have := (locked_of_calm hr).during k (by simp [hk, Pc.traversing])
    omega
  cases hp : s.pc i <;> simp only [hp, Pc.rechecks, Bool.false_eq_true] at hi <;> subst hi
  case recheck =>
    by_cases hc : s.shared.closing = .none
    · exact ⟨s.enter s.shared i (.relen true),
        goes .refl (by simp [hp, next, hc]), by simp [Pc.touches]⟩
    · refine ⟨(s.enter s.shared i (.relock true)).enter s.shared i (.relen true),
        goes (goes .refl ?_) (by simp [hp, next, hc]), by simp [Pc.touches]⟩
      simp [next, hlock]
  case relock =>
    exact ⟨s.enter s.shared i (.relen true),
      goes .refl (by simp [hp, next, hlock]), by simp [Pc.touches]⟩
  case relen => exact ⟨s, .refl, by simp [hp, Pc.touches]⟩

end Closed

/-- Once the finalizer of a connection whose handlers do not panic has come to `closeBuffer`, nobody
touches the buffers any more but a task in its last look at the length; and nobody at all if and
only if no task stands between giving up `processing` and that look. -/
theorem no_access_after_closeBuffer (h : Handlers) (onRequest : Bool) {s : System}
    (hr : Reach (step h) (fun _ a => a.calm) (init onRequest) s) (k : Nat)
    (hk : s.pc k = .finBuffer) :
    (∀ s', Reach (step h) (fun _ a => a.calm) s s' →
      ∀ i, (s'.pc i).touches = true → s'.pc i = .relen true) ∧
    ((∀ s', Reach (step h) (fun _ a => a.calm) s s' → ∀ i, (s'.pc i).touches = false) ↔
      ∀ i, (s.pc i).rechecks = false) := by
  refine ⟨fun s' hr' i hi => ?_, fun hno i => ?_, fun hl s' hr' i => ?_⟩
  · have hre := rechecks_of_touches hr hk hr' hi
    cases hp : s'.pc i <;> simp_all [Pc.rechecks, Pc.touches]
  · by_contra hi
    obtain ⟨s', hr', ht⟩ := touches_of_rechecks hr hk (i := i) (by simpa using hi)
    simp [hno s' hr' i] at ht
  · by_contra hi
    simpa [not_rechecks hr hk hl hr' i]
      using rechecks_of_touches hr hk hr' (i := i) (by simpa using hi)

theorem no_access_after_closeBuffer_hup :
    ∃ s, Reach (step ⟨true, false⟩) (fun _ a => a.calm) (init true) s ∧ s.pc 2 = .finBuffer ∧
      ∀ i, (s.pc i).touches = false := by
  have hrun : ∃ s, runs (guarded (step ⟨true, false⟩) fun _ a => a.calm) (init true)
      (List.flatten [
        [.flush 3, .run 3 0, .run 3 0, .run 3 0, .run 3 0, .hup, .run 0 0, .run 0 0, .onhups],
        List.replicate 10 (.run 2 0)]) = some s ∧ s.pc 2 = .finBuffer ∧ ∀ i, i ≠ 2 →
          s.pc i = .idle := by
    refine ⟨_, rfl, rfl, fun i hi => ?_⟩
    simp +contextual [State.enter, init, hi]
  obtain ⟨s, hs, hpc, hidle⟩ := hrun
  have hr := Reach.of_runs hs
  refine ⟨s, hr, hpc, (no_access_after_closeBuffer _ _ hr 2 hpc).2.mpr (fun i => ?_) s .refl⟩
  by_cases hi : i = 2
  · simp [hi, hpc, Pc.rechecks]
  · simp [hidle i hi, Pc.rechecks]

/-- A task serves one byte and finds the connection open; then the peer hangs up, and the task looks
at the length of a buffer that is being closed. -/
theorem access_after_closeBuffer :
    ∃ s, Reach (step ⟨false, false⟩) (fun _ a => a.calm) (init true) s ∧ s.pc 2 = .finBuffer ∧
      s.pc 3 = .relen true ∧ (s.pc 3).touches = true := by
  have hrun : ∃ s, runs (guarded (step ⟨false, false⟩) fun _ a => a.calm) (init true)
      (List.flatten [[.readable 1], List.replicate 6 (.run 0 3), List.replicate 2 (.run 3 0),
        [.consume 1], List.replicate 5 (.run 3 0), [.hup, .run 0 0, .run 0 0, .onhups],
        List.replicate 10 (.run 2 0)]) = some s ∧ s.pc 2 = .finBuffer ∧ s.pc 3 = .relen true :=
    ⟨_, rfl, rfl, rfl⟩
  obtain ⟨s, hs, h2, h3⟩ := hrun
  exact ⟨s, Reach.of_runs hs, h2, h3, by rw [h3]; rfl⟩

end Netpoll.Connection
