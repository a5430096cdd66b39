import Netpoll.Poll.Manager

/-! `Run` of the poll manager when `openPoll` fails, and the `Pick` that has called it.
The goroutine of `Pick` has won the status word, so that nobody else touches the manager. -/

namespace Netpoll.OpenFailure

open Netpoll.PollManager (Status)

structure Manager where
  numLoops : Int
  status : Status
  balance : Option (List Nat × Nat)
  polls : List Nat
  opened : Nat
  closed : List Nat
  deriving DecidableEq, Repr

inductive Outcome (α : Type)
  | returns (value : α)
  | error
  | waits
  | panicked
  deriving DecidableEq, Repr

namespace Manager

def close (m : Manager) : Manager :=
  { m with numLoops := 0, balance := none, polls := [], closed := m.polls ++ m.closed }

def rebalance (m : Manager) : Outcome Unit × Manager :=
  match m.balance with
  | none => (.panicked, m)
  | some (_, accepted) => (.returns (), { m with balance := some (m.polls, accepted) })

def growLoop (opens : Nat → Bool) : Nat → Nat → List Nat → Manager → Option (List Nat) × Manager
  | 0, _, polls, m => (some polls, m)
  | left + 1, k, polls, m =>
    if opens k then growLoop opens left (k + 1) (polls ++ [m.opened])
      { m with opened := m.opened + 1 }
    else (none, m)

/-- `Run`, where `opens k` says whether the call number `k` of its `openPoll` succeeds. -/
def run (opens : Nat → Bool) (m : Manager) : Outcome Unit × Manager :=
  if m.numLoops = m.polls.length then (.returns (), m)
  else if m.numLoops < 0 then (.panicked, m)
  else if m.numLoops < m.polls.length then
    let n := m.numLoops.toNat
    rebalance { m with polls := m.polls.take n, closed := (m.polls.drop n).reverse ++ m.closed }
  else
    match growLoop opens (m.numLoops.toNat - m.polls.length) 0 m.polls m with
    | (some polls, m) => rebalance { m with polls := polls }
    -- the deferred function
    | (none, m) => (.error, m.close)

def balancePick (m : Manager) : Outcome Nat × Manager :=
  match m.balance with
  | none => (.panicked, m)
  | some (polls, accepted) =>
    match polls[(accepted + 1) % polls.length]? with
    | none => (.panicked, m)
    | some p => (.returns p, { m with balance := some (polls, accepted + 1) })

def pick (opens : Nat → Bool) (m : Manager) : Outcome Nat × Manager :=
  match m.status with
  | .initialized => m.balancePick
  | .initializing => (.waits, m)
  | .uninitialized =>
    match { m with status := .initializing }.run opens with
    | (.panicked, m) => (.panicked, m)
    -- the error of `Run` is dropped
    | (_, m) => { m with status := .initialized }.balancePick

/-- The failure of `Run` leaves nothing behind: the pollers that it has opened are closed, and
the `Pick` that has called it does not fault. -/
def Atomic (opens : Nat → Bool) (m : Manager) : Prop :=
  (∀ p, m.opened ≤ p → p < (m.run opens).2.opened → p ∈ (m.run opens).2.closed) ∧
    (m.pick opens).1 ≠ .panicked

end Manager

open Manager

section Alone

open Netpoll.PollManager (Pc System next)
open Netpoll.Lib.Threads Netpoll.Lib.Transition

def Manager.words (m : Manager) (last : Int) : PollManager.Manager :=
  { numLoops := m.numLoops, status := m.status, balance := (m.balance.elim [] (·.1)).map some,
    polls := m.polls.map some, opened := m.opened, closed := m.closed, last }

abbrev Alone : PollManager.Manager × Pc → PollManager.Manager × Pc → Prop :=
  Relation.ReflTransGen fun x y => next x.1 0 x.2 = some y

variable {m : Manager} {l : Int} {b : List Nat × Nat}

theorem shrinkClose_alone (polls : List (Option Nat)) {n : Nat} (hn : n ≤ m.polls.length) :
    Alone (m.words l, .shrinkClose n polls)
      ({ m with closed := (m.polls.drop n).reverse ++ m.closed }.words l,
        .storePolls polls) := by
  obtain ⟨left, hl⟩ := Nat.exists_eq_add_of_le hn
  induction left generalizing n m with
  | zero =>
    refine .single ?_
    simp [next, words, hl]
  | succ left ih =>
    have hlt : n < m.polls.length := by omega
    have hclosed : (m.polls.drop n).reverse ++ m.closed =
        (m.polls.drop (n + 1)).reverse ++ m.polls[n] :: m.closed := by
      rw [List.drop_eq_getElem_cons hlt, List.reverse_cons, List.append_assoc,
        List.singleton_append]
    have hrest := ih (m := { m with closed := m.polls[n] :: m.closed }) (n := n + 1) hlt
      (by simp only; omega)
    rw [hclosed]
    refine .head ?_ hrest
    simp [next, words, hlt]

theorem growOpen_alone (left k : Nat) (polls : List Nat) :
    ∃ polls' m', growLoop (fun _ => true) left k polls m = (some polls', m') ∧
      m'.balance = m.balance ∧ m'.status = m.status ∧
      Alone (m.words l, .growOpen polls.length (polls.length + left)
          (polls.map some ++ List.replicate left none))
        (m'.words l, .storePolls (polls'.map some)) := by
  induction left generalizing k polls m with
  | zero =>
    refine ⟨polls, m, rfl, rfl, rfl, .single ?_⟩
    simp [next]
  | succ left ih =>
    obtain ⟨polls', m', he, hb, hst, h⟩ :=
      ih (m := { m with opened := m.opened + 1 }) (k + 1) (polls ++ [m.opened])
    refine ⟨polls', m', by simpa [growLoop] using he, hb, hst, .head ?_ h⟩
    simp [next, words, List.replicate_succ, Nat.add_assoc, Nat.add_comm 1]

theorem rebalance_alone (hb : m.balance = some b) (polls : List Nat) :
    ∃ m', rebalance { m with polls } = (.returns (), m') ∧
      m'.balance = some (polls, b.2) ∧ m'.status = m.status ∧
      Alone (m.words l, .storePolls (polls.map some)) (m'.words l, .pickFinish) := by
  refine ⟨{ m with polls, balance := some (polls, b.2) }, by simp [rebalance, hb], rfl, rfl, ?_⟩
  exact .head (b := (_, .rebalance)) rfl (.single rfl)

theorem run_alone (hb : m.balance = some b) :
    ∃ o m', m.run (fun _ => true) = (o, m') ∧
      (o = .panicked ∨ m'.balance.isSome ∧ m'.status = m.status) ∧
      Alone (m.words l, .runLoops)
        (m'.words l, if o = .panicked then .panicked else .pickFinish) := by
  have hstart {x} (h : Alone (m.words l, .runLen m.numLoops) x) :
      Alone (m.words l, .runLoops) x := .head rfl h
  unfold run
  by_cases heq : m.numLoops = m.polls.length
  · refine ⟨_, _, if_pos heq, .inr (by simp [hb]), hstart (.single ?_)⟩
    simp [next, words, heq]
  rw [if_neg heq]
  by_cases hneg : m.numLoops < 0
  · refine ⟨_, _, if_pos hneg, .inl rfl, hstart (.single ?_)⟩
    simp [next, words, heq, hneg]
  rw [if_neg hneg]
  obtain ⟨n, hn⟩ := Int.eq_ofNat_of_zero_le (Int.not_lt.mp hneg)
  have hne : n ≠ m.polls.length := fun h => heq (hn.trans (congrArg _ h))
  have hcompare {x} (h : Alone (m.words l, .runCompare n) x) :
      Alone (m.words l, .runLoops) x := by
    refine hstart (.head ?_ h)
    simp [next, words, hne, hn]
  by_cases hlt : n < m.polls.length
  · obtain ⟨m', he, hb', hst, h⟩ := rebalance_alone (l := l)
      (m := { m with closed := (m.polls.drop n).reverse ++ m.closed }) hb (m.polls.take n)
    refine ⟨.returns (), m', by simpa [hn, hlt] using he, .inr ⟨by simp [hb'], hst⟩,
      hcompare ?_⟩
    refine .head (b := (m.words l, .shrinkCopy n)) (by simp [next, words, hlt])
      (.head (b := (m.words l, .shrinkClose n ((m.polls.take n).map some))) ?_ ?_)
    · simp [next, words, List.map_take, Nat.not_lt.mpr (Nat.le_of_lt hlt)]
    · exact (shrinkClose_alone _ (Nat.le_of_lt hlt)).trans h
  · obtain ⟨polls, m₁, hgrow, hbal, hst₁, h₁⟩ :=
      growOpen_alone (m := m) (l := l) (n - m.polls.length) 0 m.polls
    obtain ⟨m', he, hb', hst, h⟩ := rebalance_alone (l := l) (hbal.trans hb) polls
    refine ⟨.returns (), m', ?_, .inr ⟨by simp [hb'], hst.trans hst₁⟩, hcompare ?_⟩
    · simpa [hn, hlt, hgrow] using he
    · have hcopy : (m.polls.map some).take n ++ List.replicate (n - m.polls.length) none =
          m.polls.map some ++ List.replicate (n - m.polls.length) none := by
        rw [List.take_of_length_le (by simpa using Nat.not_lt.mp hlt)]
      have hsum : m.polls.length + (n - m.polls.length) = n := by omega
      rw [hsum] at h₁
      refine .head (b := (m.words l, .growCopy n)) (by simp [next, words, hlt])
        (.head (b := (m.words l, .growLen n _)) rfl (.head ?_ (h₁.trans h)))
      simp [next, words, hcopy]

theorem balancePick_alone (hb : m.balance = some b) :
    ∃ o m', m.balancePick = (o, m') ∧ Alone (m.words l, .pickBalance)
      (m'.words l, if o = .panicked then .panicked else .idle) := by
  obtain ⟨polls, accepted⟩ := b
  cases hp : polls[(accepted + 1) % polls.length]? with
  | none =>
    have hnil : polls = [] := by
      by_contra hne
      have := Nat.mod_lt (accepted + 1) (List.length_pos_iff.mpr hne)
      exact absurd (List.getElem?_eq_none_iff.mp hp) (by omega)
    refine ⟨.panicked, m, by simp [balancePick, hb, hp], .single ?_⟩
    simp [next, words, hb, hnil]
  | some p =>
    have hnil : polls ≠ [] := by
      rintro rfl
      simp at hp
    refine ⟨.returns p, { m with balance := some (polls, accepted + 1) },
      by simp [balancePick, hb, hp], .single ?_⟩
    simp [next, words, hb, hnil]

theorem pick_alone (hb : m.balance = some b) (hs : m.status ≠ .initializing) :
    ∃ o m', m.pick (fun _ => true) = (o, m') ∧ Alone (m.words l, .pickStatus)
      (m'.words l, if o = .panicked then .panicked else .idle) := by
  unfold pick
  cases hst : m.status with
  | initialized =>
    obtain ⟨o, m', he, h⟩ := balancePick_alone hb
    refine ⟨o, m', he, .head ?_ h⟩
    simp [next, words, hst]
  | initializing => exact absurd hst hs
  | uninitialized =>
    obtain ⟨o, m₁, he, hkept, h⟩ :=
      run_alone (m := { m with status := .initializing }) (l := l) hb
    have hstart {x} (h : Alone ({ m with status := .initializing }.words l, .runLoops) x) :
        Alone (m.words l, .pickStatus) x := by
      refine .head (b := (m.words l, .pickCas)) ?_ (.head ?_ h)
      · simp [next, words, hst]
      · simp [next, words, hst]
    by_cases ho : o = .panicked
    · refine ⟨.panicked, m₁, ?_, hstart (by simpa [ho] using h)⟩
      rw [he, ho]
    · obtain ⟨hb₁, hst₁⟩ := hkept.resolve_left ho
      obtain ⟨b₁, hb₁⟩ := Option.isSome_iff_exists.mp hb₁
      obtain ⟨o', m', he', h'⟩ := balancePick_alone (m := { m₁ with status := .initialized }) hb₁
      refine ⟨o', m', by simpa [he, ho] using he', hstart ?_⟩
      refine .trans (by simpa [ho] using h) (.head ?_ h')
      simp [next, words, hst₁]

theorem reach_alone {s : System} {k : Nat} {x y : PollManager.Manager × Pc} (h : Alone x y)
    (hs : s.shared = x.1 ∧ s.pc k = x.2) :
    ∃ s', Reach PollManager.step (fun _ a => a = .run k) s s' ∧ s'.shared = y.1 ∧
    s'.pc k = y.2 := by
  refine Reach.follows (fun (s : System) x => s.shared = x.1 ∧ s.pc k = x.2) h hs ?_
  rintro s x y ⟨hsh, hpc⟩ hn
  have hn' : next s.shared k (s.pc k) = some y := by rw [hsh, hpc]; exact hn
  exact ⟨.run k, s.enter y.1 k y.2, rfl, by simp [PollManager.step, State.move, hn'], by simp,
    by simp⟩

/-- A `Pick` none of whose calls of `openPoll` fails is one of the goroutines of the manager, if
nobody else moves until it has returned. -/
theorem pick_refines {s : System} {k : Nat} (hs : s.shared = m.words l)
    (hk : s.pc k = .pickStatus) (hb : m.balance.isSome) (hst : m.status ≠ .initializing) :
    ∃ s', Reach PollManager.step (fun _ a => a = .run k) s s' ∧
      s'.shared = (m.pick fun _ => true).2.words l ∧
      s'.pc k = if (m.pick fun _ => true).1 = .panicked then .panicked else .idle := by
  obtain ⟨b, hb⟩ := Option.isSome_iff_exists.mp hb
  obtain ⟨o, m', he, h⟩ := pick_alone (l := l) hb hst
  rw [he]
  exact reach_alone h ⟨hs, hk⟩

end Alone

variable {opens : Nat → Bool} {m : Manager} {k left : Nat} {polls : List Nat}

theorem growLoop_fails {j : Nat} (hle : j ≤ k) (hlt : k - j < left)
    (hopens : ∀ i, j ≤ i → i < k → opens i = true) (hfail : opens k = false) :
    growLoop opens left j polls m = (none, { m with opened := m.opened + (k - j) }) := by
  induction left generalizing j polls m with
  | zero => omega
  | succ left ih =>
    by_cases hj : j = k
    · subst hj
      simp [growLoop, hfail]
    · have hsum : m.opened + 1 + (k - (j + 1)) = m.opened + (k - j) := by omega
      rw [growLoop, if_pos (hopens j (Nat.le_refl j) (by omega)),
        ih (by omega) (by omega) fun i hi => hopens i (by omega)]
      simp only [hsum]

theorem run_fails (hk : m.polls.length + k < m.numLoops) (hopens : ∀ i < k, opens i = true)
    (hfail : opens k = false) :
    m.run opens = (.error, { m with opened := m.opened + k }.close) := by
  have hne : m.numLoops ≠ m.polls.length := by omega
  have hneg : ¬ m.numLoops < 0 := by omega
  have hlt : ¬ m.numLoops < m.polls.length := by omega
  have hgrow : growLoop opens (m.numLoops.toNat - m.polls.length) 0 m.polls m = _ :=
    growLoop_fails (Nat.zero_le k) (by omega) (fun i _ => hopens i) hfail
  rw [run, if_neg hne, if_neg hneg, if_neg hlt, hgrow]
  simp

theorem pick_fails (hm : m.status = .uninitialized) (hk : m.polls.length + k < m.numLoops)
    (hopens : ∀ i < k, opens i = true) (hfail : opens k = false) :
    (m.pick opens).1 = .panicked := by
  have hrun := run_fails (m := { m with status := .initializing }) hk hopens hfail
  rw [pick, hm]
  simp only [hrun]
  rfl

/-- Whatever the number of pollers, the number asked for and the call of `openPoll` that fails:
the failure is not atomic.  The pollers that have been opened before are not closed, and the
`Pick` faults. -/
theorem run_not_atomic (hm : m.status = .uninitialized) (hk : m.polls.length + k < m.numLoops)
    (hopens : ∀ i < k, opens i = true) (hfail : opens k = false) :
    ¬ m.Atomic opens ∧ (m.run opens).1 = .error ∧ (m.run opens).2.opened = m.opened + k ∧
      (m.run opens).2.closed = m.polls ++ m.closed := by
  have hrun := run_fails hk hopens hfail
  refine ⟨fun hat => hat.2 (pick_fails hm hk hopens hfail), ?_, ?_, ?_⟩ <;> rw [hrun]
  · rfl
  · rfl

def short : Manager :=
  { numLoops := 3, status := .uninitialized, balance := some ([0], 0), polls := [0], opened := 1,
    closed := [] }

theorem run_not_atomic_short :
    short.polls.length + 1 < short.numLoops ∧ ¬ short.Atomic fun i => i < 1 := by
  have hk : short.polls.length + ((1 : Nat) : Int) < short.numLoops := by decide
  exact ⟨hk, (run_not_atomic (k := 1) rfl hk (by decide) (by decide)).1⟩

/-- Poller 1 has been opened and is not closed, and the `Pick` faults. -/
theorem openPoll_leaks :
    (short.run fun i => i < 1).1 = .error ∧ (short.run fun i => i < 1).2.opened = 2 ∧
      (short.run fun i => i < 1).2.polls = [] ∧ 1 ∉ (short.run fun i => i < 1).2.closed ∧
      (short.pick fun i => i < 1).1 = .panicked ∧ ¬ short.Atomic fun i => i < 1 := by
  refine ⟨rfl, rfl, rfl, by decide, rfl, fun hat => hat.2 rfl⟩

end Netpoll.OpenFailure
