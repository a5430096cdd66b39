import Netpoll.Lib.Transition
import Netpoll.Lib.Threads

/-! `server.OnRead` and the goroutine that it starts when `Accept` runs out of file
descriptors.  Goroutine 0 is the poller of the listener; the interest set is level
triggered, so that an event comes whenever the listener is in it.  What `Accept`
returns is the choice of the environment. -/

namespace Netpoll.Server

open Netpoll.Lib.Threads Netpoll.Lib.Transition

/-- What `Accept` returns: a connection, nothing, `EMFILE` or `ENFILE`, an error whose
text contains "closed", or another one. -/
inductive Accepted
  | conn | again | outOfFd | closed | other
  deriving DecidableEq, Repr

structure Listener where
  interest : Bool
  detached : Nat
  doing : Bool
  deriving DecidableEq, Repr

inductive Pc
  | idle
  -- OnRead
  | accept | detach | detachCtl | spawn | shutdown | shutdownCtl
  -- the retry goroutine; the argument is `retryTimeIndex`
  | retry (index : Nat) | reregister
  deriving DecidableEq, Repr

abbrev AcceptLoop := State Listener Pc

inductive Label
  | event
  | run (k j : Nat) (r : Accepted)
  deriving DecidableEq, Repr

def Listener.done (l : Listener) : Move Listener Pc := ⟨{ l with doing := false }, .idle, none⟩

def nextRetry (index : Nat) : Nat := if index + 1 < 7 then index + 1 else index

def next (r : Accepted) (l : Listener) (_k _j : Nat) : Pc → Option (Move Listener Pc)
  | .idle => none
  | .accept => some <| match r with
    | .conn | .again | .other => l.done
    | .outOfFd => ⟨l, .detach, none⟩
    | .closed => ⟨l, .shutdown, none⟩
  | .detach =>
    -- Control(PollDetach) goes to the poller the first time only
    some ⟨{ l with detached := l.detached + 1 }, if 1 < l.detached + 1 then .spawn else .detachCtl,
      none⟩
  | .detachCtl => some <| if l.interest then ⟨{ l with interest := false }, .spawn, none⟩
      else l.done
  | .spawn => some ⟨{ l with doing := false }, .idle, some (.retry 0)⟩
  | .shutdown =>
    some <| if 1 < l.detached + 1 then { l with detached := l.detached + 1 }.done
      else ⟨{ l with detached := l.detached + 1 }, .shutdownCtl, none⟩
  | .shutdownCtl => some { l with interest := false }.done
  | .retry index => some <| match r with
    | .conn => ⟨l, .retry 0, none⟩
    | .again => ⟨l, .reregister, none⟩
    | .outOfFd | .closed | .other => ⟨l, .retry (nextRetry index), none⟩
  | .reregister =>
    -- Control(PollReadable) waits in `inuse` for the poller
    if l.doing then none else some ⟨{ l with interest := true }, .idle, none⟩

def step (s : AcceptLoop) : Label → Option AcceptLoop
  | .event =>
    if s.pc 0 = .idle ∧ s.shared.interest ∧ s.shared.doing = false then
      some (s.enter { s.shared with doing := true } 0 .accept)
    else none
  | .run k j r => s.run .idle 1 (next r) k j

def init : AcceptLoop := ⟨⟨true, 0, false⟩, fun _ => .idle⟩

namespace Pc

def retries : Pc → Bool
  | retry _ | reregister => true
  | _ => false

def reads : Pc → Bool
  | accept | detach | detachCtl | spawn | shutdown | shutdownCtl => true
  | _ => false

def Knows (l : Listener) : Pc → Prop
  | detach => l.detached = 0
  | spawn => l.interest = false
  | _ => True

end Pc

theorem next_task {r : Accepted} {l l' : Listener} {k j : Nat} {p p' t : Pc}
    (hn : next r l k j p = some ⟨l', p', some t⟩) :
    p = .spawn ∧ { l with doing := false } = l' ∧ p' = .idle ∧ t = .retry 0 := by
  cases p with
  | spawn =>
    cases hn
    exact ⟨rfl, rfl, rfl, rfl⟩
  | idle | detach | shutdownCtl => simp [next, Listener.done] at hn
  | accept | retry => cases r <;> simp [next, Listener.done] at hn
  | detachCtl | shutdown | reregister =>
    simp only [next, Listener.done] at hn
    split at hn <;> cases hn

/-- `OnRead` runs out of file descriptors only once: the detach counter is still zero. -/
def Label.firstEpisode (s : AcceptLoop) : Label → Bool
  | .run k _ .outOfFd => s.pc k != .accept || s.shared.detached == 0
  | _ => true

structure BackOff (s : AcceptLoop) : Prop where
  poller : ∀ k, (s.pc k).reads = true → k = 0
  knows : s.Facts Pc.Knows
  away : ∀ k, (s.pc k).retries = true → s.shared.interest = false
  unique : s.Unique Pc.retries
  quiet : (s.pc 0).reads = true → ∀ k, (s.pc k).retries = false

namespace BackOff

variable {s s' : AcceptLoop} {l : Listener} {k j : Nat} {p : Pc}

theorem read (hs : BackOff s) (hk : (s.pc k).reads = true) (hknow : p.Knows l)
    (hp : p.retries = false) : BackOff (s.enter l k p) := by
  obtain rfl := hs.poller k hk
  have hno : ∀ i, ((s.enter l 0 p).pc i).retries = false := by
    intro i
    rcases eq_or_ne i 0 with rfl | hi
    · simpa using hp
    · simpa [hi] using hs.quiet hk i
  have hrest : ∀ i, i ≠ 0 → (s.pc i).reads = false := by
    intro i hi
    by_contra h
    exact hi (hs.poller i (by simpa using h))
  refine ⟨fun i hi => ?_, hs.knows.enter (fun i hi _ => ?_) hknow, fun i hi => ?_, fun i _ hi => ?_,
    fun _ => hno⟩
  · by_contra h
    simp [h, hrest i h] at hi
  · have := hrest i hi
    cases hpc : s.pc i <;> simp_all [Pc.Knows, Pc.reads]
  · simp [hno i] at hi
  · simp [hno i] at hi

theorem spawn (hs : BackOff s) (hk : s.pc k = .spawn) (hj : 1 ≤ j) :
    BackOff ((s.enter { s.shared with doing := false } k .idle).enter
      { s.shared with doing := false } j (.retry 0)) := by
  have hknow : (s.pc k).Knows s.shared := hs.knows k
  rw [hk] at hknow
  have hidle := hs.read (l := { s.shared with doing := false }) (p := .idle) (by rw [hk]; rfl)
    trivial rfl
  obtain rfl := hs.poller k (by rw [hk]; rfl)
  have hno : ∀ i, ((s.enter { s.shared with doing := false } 0 .idle).pc i).retries = false := by
    intro i
    rcases eq_or_ne i 0 with rfl | hi
    · simp [Pc.retries]
    · simpa [hi] using hs.quiet (by rw [hk]; rfl) i
  have hj0 : (0 : Nat) ≠ j := by omega
  refine ⟨fun i hi => ?_, hidle.knows.enter (fun _ _ h => h) trivial, fun _ _ => hknow,
    .enter_first hno, fun h => ?_⟩
  · rcases eq_or_ne i j with rfl | hij
    · simp [Pc.reads] at hi
    · exact hidle.poller i (by simpa [hij] using hi)
  · simp [hj0, Pc.reads] at h

theorem retry (hs : BackOff s) (hk : (s.pc k).retries = true) (hp : p.reads = false)
    (hl : p.retries = true → l = s.shared) : BackOff (s.enter l k p) := by
  have hidle : (s.pc 0).reads = false := by
    by_contra h
    have := hs.quiet (by simpa using h) k
    simp [hk] at this
  have hnoread : ∀ i, (s.pc i).reads = false := by
    intro i
    by_contra h
    obtain rfl := hs.poller i (by simpa using h)
    exact h hidle
  have hnoread' : ∀ i, ((s.enter l k p).pc i).reads = false := by
    intro i
    rcases eq_or_ne i k with rfl | hik
    · simpa using hp
    · simpa [hik] using hnoread i
  have hknow : ∀ p : Pc, p.reads = false → p.Knows l := by
    intro p h
    cases p <;> simp_all [Pc.Knows, Pc.reads]
  refine ⟨fun i hi => ?_, fun i => hknow _ (hnoread' i), fun i hi => ?_,
    hs.unique.enter fun _ => hk, fun h => ?_⟩
  · simp [hnoread' i] at hi
  · have hik : i = k := by
      by_contra hik
      exact hik (hs.unique i k (by simpa [hik] using hi) hk)
    subst hik
    have hsame := hl (by simpa using hi)
    simpa [hsame] using hs.away i hk
  · simp [hnoread' 0] at h

theorem event (hs : BackOff s) (hint : s.shared.interest = true) :
    BackOff (s.enter { s.shared with doing := true } 0 .accept) := by
  have hno : ∀ i, (s.pc i).retries = false := by
    intro i
    by_contra hi
    have := hs.away i (by simpa using hi)
    simp [this] at hint
  have hno' : ∀ i, ((s.enter { s.shared with doing := true } 0 .accept).pc i).retries = false := by
    intro i
    rcases eq_or_ne i 0 with rfl | hi
    · simp [Pc.retries]
    · simpa [hi] using hno i
  refine ⟨fun i hi => ?_, hs.knows.enter (fun _ _ h => h) trivial, fun i hi => ?_, fun i _ hi => ?_,
    fun _ => hno'⟩
  · by_contra h
    exact h (hs.poller i (by simpa [h] using hi))
  · simp [hno' i] at hi
  · simp [hno' i] at hi

theorem move {r : Accepted} (hs : BackOff s) (ha : (Label.run k j r).firstEpisode s = true)
    (hn : next r s.shared k j (s.pc k) = some ⟨l, p, none⟩) : BackOff (s.enter l k p) := by
  have hknow : (s.pc k).Knows s.shared := hs.knows k
  have hread := fun {l p} => hs.read (l := l) (p := p) (k := k)
  cases hpc : s.pc k with
  | idle | spawn => simp [next, hpc] at hn
  | accept =>
    rw [hpc] at hn
    cases r with
    | outOfFd =>
      cases hn
      exact hread (by rw [hpc]; rfl) (by simpa [Label.firstEpisode, hpc, Pc.Knows] using ha) rfl
    | conn | again | other | closed =>
      cases hn
      exact hread (by rw [hpc]; rfl) trivial rfl
  | detach =>
    rw [hpc] at hn hknow
    have h0 : s.shared.detached = 0 := hknow
    simp only [next, h0] at hn
    cases hn
    exact hread (by rw [hpc]; rfl) trivial rfl
  | detachCtl =>
    rw [hpc] at hn
    simp only [next, Option.some.injEq] at hn
    split at hn
    · cases hn
      exact hread (by rw [hpc]; rfl) rfl rfl
    · cases hn
      exact hread (by rw [hpc]; rfl) trivial rfl
  | shutdown =>
    rw [hpc] at hn
    simp only [next, Option.some.injEq] at hn
    split at hn <;> cases hn <;> exact hread (by rw [hpc]; rfl) trivial rfl
  | shutdownCtl =>
    rw [hpc] at hn
    cases hn
    exact hread (by rw [hpc]; rfl) trivial rfl
  | retry index =>
    rw [hpc] at hn
    cases r <;> cases hn <;> exact hs.retry (by rw [hpc]; rfl) rfl fun _ => rfl
  | reregister =>
    rw [hpc] at hn
    simp only [next] at hn
    split at hn
    · cases hn
    · cases hn
      exact hs.retry (by rw [hpc]; rfl) rfl nofun

theorem step {a : Label} (hs : BackOff s) (ha : a.firstEpisode s = true) (h : step s a = some s') :
    BackOff s' := by
  cases a with
  | event =>
    obtain ⟨⟨-, hint, -⟩, h⟩ := Option.ite_none_right_eq_some.mp h
    cases h
    exact hs.event hint
  | run k j r =>
    rcases State.run_cases h with ⟨l, p, hn, rfl⟩ | ⟨l, p, t, hn, hj, -, -, rfl⟩
    · exact hs.move ha hn
    · obtain ⟨hpc, hl, rfl, rfl⟩ := next_task hn
      exact hl ▸ hs.spawn hpc hj

theorem init : BackOff init := ⟨nofun, fun _ => trivial, nofun, nofun, nofun⟩

end BackOff

/-- As long as `OnRead` has run out of file descriptors at most once, at most one retry
goroutine is running, and while it is the listener is not in the interest set. -/
theorem retry_alone {s : AcceptLoop} (hr : Reach step (fun s a => a.firstEpisode s) init s) :
    (∀ i k, (s.pc i).retries = true → (s.pc k).retries = true → i = k) ∧
      ∀ k, (s.pc k).retries = true → s.shared.interest = false := by
  have hs : BackOff s := hr.invariant .init fun _ _ _ hs ha h => hs.step ha h
  exact ⟨hs.unique, hs.away⟩

def oneEpisode : List Label :=
  [.event, .run 0 0 .conn, .event, .run 0 0 .outOfFd, .run 0 0 .again, .run 0 0 .again,
  .run 0 1 .again,
    .run 1 0 .outOfFd]

theorem retry_alone_one :
    ∃ s : AcceptLoop, Reach step (fun s a => a.firstEpisode s) init s ∧ s.pc 1 = .retry 1 ∧
      s.shared.interest = false := by
  have hrun : ∃ s, runs (guarded step fun s a => a.firstEpisode s) init oneEpisode = some s ∧
      s.pc 1 = .retry 1 := ⟨_, rfl, rfl⟩
  obtain ⟨s, hs, h1⟩ := hrun
  have hr := Reach.of_runs hs
  exact ⟨s, hr, h1, (retry_alone hr).2 1 (by rw [h1]; rfl)⟩

def twoEpisodes : List Label :=
  [.event, .run 0 0 .outOfFd, .run 0 0 .again, .run 0 0 .again, .run 0 1 .again, .run 1 0 .again,
    .run 1 0 .again, .event, .run 0 0 .outOfFd, .run 0 0 .again, .run 0 1 .again,
    .event, .run 0 0 .outOfFd, .run 0 0 .again, .run 0 2 .again]

/-- Two retry goroutines are running, with the listener in the interest set. -/
theorem retries_twice :
    ∃ s : AcceptLoop, Reach step (fun _ _ => True) init s ∧ s.pc 1 = .retry 0 ∧ s.pc 2 = .retry 0 ∧
      s.shared.interest = true := by
  have hrun : ∃ s, runs (guarded step fun _ _ => true) init twoEpisodes = some s ∧
    s.pc 1 = .retry 0 ∧
      s.pc 2 = .retry 0 ∧ s.shared.interest = true := ⟨_, rfl, rfl, rfl, rfl⟩
  obtain ⟨s, hs, hrest⟩ := hrun
  exact ⟨s, (Reach.of_runs hs).mono fun _ _ _ _ => trivial, hrest⟩

end Netpoll.Server
