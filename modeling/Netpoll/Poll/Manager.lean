import Mathlib.Algebra.Ring.Int.Defs
import Mathlib.Algebra.Ring.Nat
import Netpoll.Lib.Transition
import Netpoll.Lib.Threads

/-! The poll manager: callers of `Pick` and `SetNumLoops`, interleaved one access at
a time.  `Pick` runs `Run` under the status word, which `SetNumLoops` resets without
looking at it; `openPoll` succeeds and gives a new poller every time. -/

namespace Netpoll.PollManager

open Netpoll.Lib.Threads Netpoll.Lib.Transition

inductive Status
  | uninitialized | initializing | initialized
  deriving DecidableEq, Repr

def int32 (n : Int) : Int := n.bmod (2 ^ 32)

/-- The words of the manager.  A poller is the number of its `openPoll`; an entry of
`polls` that has not been written is nil. -/
structure Manager where
  numLoops : Int
  status : Status
  balance : List (Option Nat)
  polls : List (Option Nat)
  opened : Nat
  closed : List Nat
  last : Int
  deriving DecidableEq, Repr

inductive Pc
  | idle
  -- SetNumLoops
  | setLoops (n : Int) | setStatus
  -- Pick
  | pickStatus | pickCas | pickFinish | pickBalance
  -- Run
  | runLoops | runLen (n : Int) | runCompare (n : Nat)
  | shrinkCopy (n : Nat) | shrinkClose (idx : Nat) (polls : List (Option Nat))
  | growCopy (n : Nat) | growLen (n : Nat) (polls : List (Option Nat))
  | growOpen (idx n : Nat) (polls : List (Option Nat))
  | storePolls (polls : List (Option Nat)) | rebalance
  -- an index or a length that is out of range, or a nil poller
  | panicked
  deriving DecidableEq, Repr

abbrev System := State Manager Pc

inductive Label
  | pick (k : Nat)
  | setNumLoops (k : Nat) (n : Int)
  | run (k : Nat)
  deriving DecidableEq, Repr

def next (m : Manager) (_k : Nat) : Pc → Option (Manager × Pc)
  | .idle | .panicked => none
  | .setLoops n => some ({ m with numLoops := int32 n, last := n }, .setStatus)
  | .setStatus => some ({ m with status := .uninitialized }, .idle)
  | .pickStatus => some (m, if m.status = .initialized then .pickBalance else .pickCas)
  | .pickCas =>
    if m.status = .uninitialized then some ({ m with status := .initializing }, .runLoops)
    else some (m, .pickStatus)
  | .runLoops => some (m, .runLen m.numLoops)
  | .runLen n =>
    some (m, if n = m.polls.length then .pickFinish else if n < 0 then .panicked
      else .runCompare n.toNat)
  | .runCompare n => some (m, if n < m.polls.length then .shrinkCopy n else .growCopy n)
  | .shrinkCopy n =>
    some (m, if m.polls.length < n then .panicked else .shrinkClose n (m.polls.take n))
  | .shrinkClose idx polls =>
    match m.polls[idx]? with
    | some (some p) => some ({ m with closed := p :: m.closed }, .shrinkClose (idx + 1) polls)
    | some none => some (m, .panicked)
    | none => some (m, .storePolls polls)
  | .growCopy n =>
    some (m, .growLen n (m.polls.take n ++ List.replicate (n - m.polls.length) none))
  | .growLen n polls => some (m, .growOpen m.polls.length n polls)
  | .growOpen idx n polls =>
    if idx < n then
      some ({ m with opened := m.opened + 1 },
        .growOpen (idx + 1) n (polls.set idx (some m.opened)))
    else some (m, .storePolls polls)
  | .storePolls polls => some ({ m with polls }, .rebalance)
  | .rebalance => some ({ m with balance := m.polls }, .pickFinish)
  | .pickFinish =>
    -- fails when `SetNumLoops` has reset the status
    some (if m.status = .initializing then { m with status := .initialized } else m, .pickBalance)
  | .pickBalance => some (m, if m.balance = [] then .panicked else .idle)

def step (s : System) : Label → Option System
  | .pick k => if s.pc k = .idle then some (s.enter s.shared k .pickStatus) else none
  | .setNumLoops k n =>
    if s.pc k = .idle then
      -- an error for a number below 1
      if n < 1 then some s else some (s.enter s.shared k (.setLoops n))
    else none
  | .run k => s.move next k

def newManager (n : Int) : Manager :=
  { numLoops := int32 n, status := .uninitialized, balance := [], polls := [], opened := 0,
    closed := [], last := n }

def init (n : Int) : System := ⟨newManager n, fun _ => .idle⟩

theorem int32_eq {n : Int} (h1 : 1 ≤ n) (h2 : n < 2 ^ 31) : int32 n = n :=
  Int.bmod_eq_of_le (by omega) (by omega)

namespace Pc

def inRun : Pc → Bool
  | runLoops | runLen _ | runCompare _ | shrinkCopy _ | shrinkClose .. | growCopy _ | growLen ..
  | growOpen .. | storePolls _ | rebalance => true
  | _ => false

def critical : Pc → Bool
  | pickFinish => true
  | p => p.inRun

def renewing : Pc → Bool
  | growOpen .. | storePolls _ => true
  | _ => false

def target (m : Manager) : Pc → Option Int
  | runLen n => some n
  | runCompare n | shrinkCopy n | growCopy n | growLen n _ | growOpen _ n _ => some n
  | shrinkClose _ polls | storePolls polls => some polls.length
  | rebalance | pickFinish => some m.polls.length
  | _ => none

theorem critical_of_target {m : Manager} {p : Pc} {t : Int} (h : p.target m = some t) :
    p.critical = true := by
  cases p <;> simp_all [target, critical, inRun]

theorem critical_of_renewing {p : Pc} (h : p.renewing = true) : p.critical = true := by
  cases p <;> first | rfl | cases h

theorem critical_of_inRun {p : Pc} (h : p.inRun = true) : p.critical = true := by
  cases p <;> first | rfl | cases h

theorem inRun_of_renewing {p : Pc} (h : p.renewing = true) : p.inRun = true := by
  cases p <;> first | rfl | cases h

end Pc

structure Accounted (m : Manager) (polls : List (Option Nat)) : Prop where
  isSome : ∀ x ∈ polls, x.isSome = true
  opened : ∀ p < m.opened, some p ∈ polls ∨ p ∈ m.closed

def Pc.Knows (m : Manager) : Pc → Prop
  | setLoops n => 1 ≤ n ∧ n < 2 ^ 31
  | runLen n => 1 ≤ n
  | runCompare n => 1 ≤ n ∧ n ≠ m.polls.length
  | shrinkCopy n => 1 ≤ n ∧ n < m.polls.length
  | shrinkClose idx polls => 1 ≤ polls.length ∧ polls.length ≤ idx ∧ polls <+: m.polls ∧
      ∀ t p, polls.length ≤ t → t < idx → m.polls[t]? = some (some p) → p ∈ m.closed
  | growCopy n => m.polls.length < n
  | growLen n polls => m.polls.length < n ∧
      polls = m.polls ++ List.replicate (n - m.polls.length) none
  | growOpen idx n polls => 1 ≤ n ∧ polls.length = n ∧ idx ≤ n ∧ Accounted m (polls.take idx)
  | storePolls polls => 1 ≤ polls.length ∧ Accounted m polls
  | rebalance => m.polls ≠ []
  | pickFinish | pickBalance => m.balance ≠ []
  | panicked => False
  | _ => True

theorem Pc.Knows.other {m m' : Manager} {p : Pc} (h : p.Knows m) (hp : p.critical = false)
    (hb : m.balance ≠ [] → m'.balance ≠ []) : p.Knows m' := by
  cases p <;> simp_all [Knows, critical, inRun]

structure Serial (s : System) : Prop where
  unique : s.Unique Pc.critical
  held : ∀ k, (s.pc k).critical = true → s.shared.status = .initializing
  knows : s.Facts Pc.Knows
  last : s.shared.numLoops = s.shared.last ∧ 1 ≤ s.shared.last
  target : ∀ k t, (s.pc k).target s.shared = some t →
    s.shared.numLoops = t ∨ ∃ i, s.pc i = .setStatus
  current : s.Covered (fun m => m.status = .initialized ∧ (m.polls.length : Int) ≠ m.numLoops)
    (· == .setStatus)
  accounted : s.Covered (fun m => ¬ Accounted m m.polls) Pc.renewing
  stocked : s.Covered (fun m => m.polls ≠ [] ∧ m.balance = []) (· == .rebalance)
  ready : s.shared.status = .initialized → s.shared.balance ≠ []

namespace Serial

variable {s s' : System} {k : Nat} {m : Manager} {p : Pc}

theorem alone (hs : Serial s) (hk : (s.pc k).critical = true) {i : Nat} (hik : i ≠ k) :
    (s.pc i).critical = false := by
  by_contra hi
  exact hik (hs.unique i k (by simpa using hi) hk)

theorem accounted_of (hs : Serial s) (hk : (s.pc k).critical = true)
    (hr : (s.pc k).renewing = false) : Accounted s.shared s.shared.polls := by
  by_contra hn
  obtain ⟨i, hi⟩ := hs.accounted hn
  obtain rfl := hs.unique i k (Pc.critical_of_renewing hi) hk
  simp [hr] at hi

theorem stocked_of (hs : Serial s) (hk : (s.pc k).critical = true) (hr : s.pc k ≠ .rebalance)
    (hp : s.shared.polls ≠ []) : s.shared.balance ≠ [] := by
  intro hb
  obtain ⟨i, hi⟩ := hs.stocked ⟨hp, hb⟩
  have hi : s.pc i = .rebalance := by simpa using hi
  obtain rfl := hs.unique i k (by rw [hi]; rfl) hk
  exact hr hi

theorem inside (hs : Serial s) (hk : (s.pc k).critical = true)
    (hnum : m.numLoops = s.shared.numLoops) (hst : m.status = s.shared.status)
    (hlast : m.last = s.shared.last) (hbal : s.shared.balance ≠ [] → m.balance ≠ [])
    (hknow : p.Knows m)
    (htarget : p.target m = some s.shared.numLoops ∨ p.target m = (s.pc k).target s.shared)
    (hacc : p.renewing = false → Accounted m m.polls)
    (hstock : p ≠ .rebalance → m.polls ≠ [] → m.balance ≠ []) : Serial (s.enter m k p) := by
  have hinit : m.status = .initializing := hst.trans (hs.held k hk)
  have hset : ∀ {i}, s.pc i = .setStatus → (s.enter m k p).pc i = .setStatus := by
    intro i hi
    have hik : i ≠ k := by
      rintro rfl
      simp [hi, Pc.critical, Pc.inRun] at hk
    simpa [hik] using hi
  refine ⟨hs.unique.enter fun _ => hk, fun _ _ => hinit, ?_, ?_, fun i t ht => ?_, fun h => ?_,
    fun h => ⟨k, ?_⟩, fun h => ⟨k, ?_⟩, fun h => ?_⟩
  · exact hs.knows.enter (fun i hik h => h.other (hs.alone hk hik) hbal) hknow
  · simpa [hnum, hlast] using hs.last
  · have hold : s.shared.numLoops = t ∨ ∃ i, s.pc i = .setStatus := by
      rcases eq_or_ne i k with rfl | hik
      · simp only [State.enter_pc_self, State.enter_shared] at ht
        rcases htarget with he | he
        · exact .inl (Option.some.inj (he.symm.trans ht))
        · exact hs.target i t (he.symm.trans ht)
      · have := hs.alone hk hik
        simp only [State.enter_pc_of_ne _ _ _ hik, State.enter_shared] at ht
        simp [Pc.critical_of_target ht] at this
    simp only [State.enter_shared, hnum]
    exact hold.imp_right fun ⟨i, hi⟩ => ⟨i, hset hi⟩
  · simp [hinit] at h
  · by_contra hr
    exact h (hacc (by simpa using hr))
  · by_contra hr
    exact hstock (by simpa using hr) h.1 h.2
  · simp [hinit] at h

section Outside

variable {n l : Int} {u : Status}

theorem outside (hs : Serial s) (hr : (s.pc k).renewing = false) (hreb : s.pc k ≠ .rebalance)
    (hunique : (s.enter { s.shared with numLoops := n, status := u, last := l } k p).Unique
      Pc.critical)
    (hheld : ∀ i,
      ((s.enter { s.shared with numLoops := n, status := u, last := l } k p).pc i).critical =
      true → u = .initializing)
    (hknow : p.Knows s.shared) (hlast : n = l ∧ 1 ≤ l)
    (htarget : ∀ i t,
      ((s.enter { s.shared with numLoops := n, status := u, last := l } k p).pc i).target
      { s.shared with numLoops := n, status := u, last := l } = some t → n = t ∨ ∃ i,
      (s.enter { s.shared with numLoops := n, status := u, last := l } k p).pc i = .setStatus)
    (hcurrent : u = .initialized → (s.shared.polls.length : Int) ≠ n →
      ∃ i, (s.enter { s.shared with numLoops := n, status := u, last := l } k p).pc i = .setStatus)
    (hready : u = .initialized → s.shared.balance ≠ []) :
    Serial (s.enter { s.shared with numLoops := n, status := u, last := l } k p) where
  unique := hunique
  held := hheld
  knows := by
    have same : ∀ p : Pc, p.Knows s.shared →
      p.Knows { s.shared with numLoops := n, status := u, last := l } := by
      intro p hp
      cases p with
      | growOpen => exact ⟨hp.1, hp.2.1, hp.2.2.1, hp.2.2.2.1, hp.2.2.2.2⟩
      | storePolls => exact ⟨hp.1, hp.2.1, hp.2.2⟩
      | _ => exact hp
    exact hs.knows.enter (fun _ _ h => same _ h) (same p hknow)
  last := hlast
  target := htarget
  current := fun h => by simpa using hcurrent h.1 h.2
  accounted := by
    refine hs.accounted.enter (fun h => .inl fun ha => h ⟨ha.1, ha.2⟩) fun _ h => ?_
    simp [hr] at h
  stocked := by
    refine hs.stocked.enter .inl fun _ h => ?_
    simp [hreb] at h
  ready := hready

end Outside

theorem look (hs : Serial s) (hk : (s.pc k).critical = false) (hset : s.pc k ≠ .setStatus)
    (hp : p.critical = false) (hknow : p.Knows s.shared) : Serial (s.enter s.shared k p) := by
  have hr : (s.pc k).renewing = false := by
    by_contra h
    simpa [hk] using Pc.critical_of_renewing (p := s.pc k) (by simpa using h)
  have hreb : s.pc k ≠ .rebalance := by
    intro h
    simp [h, Pc.critical, Pc.inRun] at hk
  have stays {i : Nat} (hi : s.pc i = .setStatus) : (s.enter s.shared k p).pc i = .setStatus := by
    have hik : i ≠ k := by
      rintro rfl
      exact hset hi
    simpa [hik] using hi
  refine hs.outside (n := s.shared.numLoops) (l := s.shared.last) (u := s.shared.status) hr hreb
    (hs.unique.enter (by simp [hp])) (fun i hi => ?_) hknow hs.last (fun i t ht => ?_)
    (fun h h' => ?_) hs.ready
  · rcases eq_or_ne i k with rfl | hik
    · simp [hp] at hi
    · exact hs.held i (by simpa [hik] using hi)
  · have hik : i ≠ k := by
      rintro rfl
      simpa [hp] using Pc.critical_of_target ht
    exact (hs.target i t (by simpa [hik] using ht)).imp_right fun ⟨l, hl⟩ => ⟨l, stays hl⟩
  · obtain ⟨i, hi⟩ := hs.current ⟨h, h'⟩
    exact ⟨i, stays (by simpa using hi)⟩

theorem nobody (hs : Serial s) (h : s.shared.status ≠ .initializing) (i : Nat) :
    (s.pc i).critical = false := by
  by_contra hi
  exact h (hs.held i (by simpa using hi))

theorem setLoops (hs : Serial s) {n : Int} (hk : s.pc k = .setLoops n) :
    Serial (s.enter { s.shared with numLoops := int32 n, last := n } k .setStatus) := by
  have hn : (s.pc k).Knows s.shared := hs.knows k
  rw [hk] at hn
  have hpc : (s.enter { s.shared with numLoops := int32 n, last := n } k .setStatus).pc k =
    .setStatus := by
    simp
  refine hs.outside (u := s.shared.status) (by rw [hk]; rfl) (by rw [hk]; nofun)
    (hs.unique.enter (by simp [Pc.critical, Pc.inRun])) (fun i hi => ?_) trivial
    ⟨int32_eq hn.1 hn.2, hn.1⟩ (fun _ _ _ => .inr ⟨k, hpc⟩) (fun _ _ => ⟨k, hpc⟩) hs.ready
  rcases eq_or_ne i k with rfl | hik
  · simp [Pc.critical, Pc.inRun] at hi
  · exact hs.held i (by simpa [hik] using hi)

theorem setStatus (hs : Serial s) (hk : s.pc k = .setStatus) (h : s.shared.status ≠ .initializing) :
    Serial (s.enter { s.shared with status := .uninitialized } k .idle) := by
  have hno : ∀ i, ((s.enter { s.shared with status := .uninitialized } k .idle).pc i).critical =
    false := by
    intro i
    rcases eq_or_ne i k with rfl | hik
    · simp [Pc.critical, Pc.inRun]
    · simpa [hik] using hs.nobody h i
  refine hs.outside (n := s.shared.numLoops) (l := s.shared.last) (by rw [hk]; rfl)
    (by rw [hk]; nofun) (hs.unique.enter (by simp [Pc.critical, Pc.inRun])) (fun i hi => ?_) trivial
    hs.last (fun i t ht => ?_)
    nofun nofun
  · simp [hno i] at hi
  · simpa [hno i] using Pc.critical_of_target ht

theorem pickCas (hs : Serial s) (hk : s.pc k = .pickCas) (h : s.shared.status = .uninitialized) :
    Serial (s.enter { s.shared with status := .initializing } k .runLoops) := by
  have hno := hs.nobody (by simp [h])
  refine hs.outside (n := s.shared.numLoops) (l := s.shared.last) (by rw [hk]; rfl)
    (by rw [hk]; nofun) (.enter_first hno) (fun _ _ => rfl) trivial hs.last (fun i t ht => ?_) nofun
    nofun
  rcases eq_or_ne i k with rfl | hik
  · simp [Pc.target] at ht
  · have := Pc.critical_of_target ht
    simp [hik, hno i] at this

theorem pickFinish (hs : Serial s) (hk : s.pc k = .pickFinish) :
    Serial (s.enter { s.shared with status := .initialized } k .pickBalance) := by
  have hc : (s.pc k).critical = true := by rw [hk]; rfl
  have hb : (s.pc k).Knows s.shared := hs.knows k
  rw [hk] at hb
  have hno : ∀ i,
    ((s.enter { s.shared with status := .initialized } k .pickBalance).pc i).critical = false := by
    intro i
    rcases eq_or_ne i k with rfl | hik
    · simp [Pc.critical, Pc.inRun]
    · simpa [hik] using hs.alone hc hik
  refine hs.outside (n := s.shared.numLoops) (l := s.shared.last) (by rw [hk]; rfl)
    (by rw [hk]; nofun) (hs.unique.enter (by simp [Pc.critical, Pc.inRun])) (fun i hi => ?_) hb
    hs.last (fun i t ht => ?_) (fun _ hne => ?_) fun _ => hb
  · simp [hno i] at hi
  · simpa [hno i] using Pc.critical_of_target ht
  · obtain ⟨i, hi⟩ := (hs.target k s.shared.polls.length (by rw [hk]; rfl)).resolve_left hne.symm
    have hik : i ≠ k := by
      rintro rfl
      simp [hk] at hi
    exact ⟨i, by simpa [hik] using hi⟩

theorem accounted_shrunk {idx : Nat} {polls : List (Option Nat)} (ha : Accounted m m.polls)
    (hk : (Pc.shrinkClose idx polls).Knows m) (hend : m.polls[idx]? = none) :
    Accounted m polls := by
  obtain ⟨-, -, hpre, hclosed⟩ := hk
  have hlen := List.getElem?_eq_none_iff.mp hend
  refine ⟨fun x hx => ha.isSome x (hpre.subset hx), fun p hp => ?_⟩
  rcases ha.opened p hp with hmem | hc
  · obtain ⟨t, ht⟩ := List.mem_iff_getElem?.mp hmem
    rcases Nat.lt_or_ge t polls.length with hlt | hge
    · obtain ⟨rest, hrest⟩ := hpre
      rw [← hrest, List.getElem?_append_left hlt] at ht
      exact .inl (List.mem_of_getElem? ht)
    · have htl := (List.getElem?_eq_some_iff.mp ht).1
      exact .inr (hclosed t p hge (by omega) ht)
  · exact .inr hc

theorem accounted_grown {idx : Nat} {polls : List (Option Nat)} (ha : Accounted m (polls.take idx))
    (hidx : idx < polls.length) :
    Accounted { m with opened := m.opened + 1 }
      ((polls.set idx (some m.opened)).take (idx + 1)) := by
  have he : (polls.set idx (some m.opened)).take (idx + 1) = polls.take idx ++ [some m.opened] := by
    rw [List.take_add_one, List.take_set_of_le (Nat.le_refl _)]
    simp [hidx]
  rw [he]
  refine ⟨fun x hx => ?_, fun p hp => ?_⟩
  · rcases List.mem_append.mp hx with hx | hx
    · exact ha.isSome x hx
    · simp [List.mem_singleton.mp hx]
  · rcases Nat.lt_succ_iff_lt_or_eq.mp hp with hlt | rfl
    · exact (ha.opened p hlt).imp_left fun h => List.mem_append_left _ h
    · exact .inl (by simp)

theorem run (hs : Serial s) (hk : (s.pc k).inRun = true)
    (hn : next s.shared k (s.pc k) = some (m, p)) :
    Serial (s.enter m k p) := by
  have hc : (s.pc k).critical = true := Pc.critical_of_inRun hk
  have hknow : (s.pc k).Knows s.shared := hs.knows k
  have hacc := hs.accounted_of hc
  have hstock := hs.stocked_of hc
  have reads {p : Pc} (hp : p.Knows s.shared) (hr : (s.pc k).renewing = false)
      (hreb : s.pc k ≠ .rebalance)
      (ht : p.target s.shared = some s.shared.numLoops ∨
        p.target s.shared = (s.pc k).target s.shared) :
      Serial (s.enter s.shared k p) :=
    hs.inside hc rfl rfl rfl id hp ht (fun _ => hacc hr) fun _ => hstock hreb
  cases hpc : s.pc k with
  | runLoops =>
    rw [hpc] at hn
    cases hn
    have hle : 1 ≤ s.shared.numLoops := hs.last.1 ▸ hs.last.2
    exact reads hle (by rw [hpc]; rfl) (by rw [hpc]; nofun) (.inl rfl)
  | runLen n =>
    rw [hpc] at hn hknow
    have h0 : ¬ n < 0 := by
      simp only [Pc.Knows] at hknow
      omega
    simp only [next, if_neg h0] at hn
    cases hn
    split
    · rename_i he
      have hne : s.shared.polls ≠ [] := by
        intro hnil
        simp only [Pc.Knows] at hknow
        simp [hnil] at he
        omega
      exact reads (hstock (by rw [hpc]; nofun) hne) (by rw [hpc]; rfl) (by rw [hpc]; nofun)
        (.inr (by rw [hpc, he]; rfl))
    · rename_i he
      simp only [Pc.Knows] at hknow
      exact reads ⟨by omega, by omega⟩ (by rw [hpc]; rfl) (by rw [hpc]; nofun)
        (.inr (by rw [hpc]; simp [Pc.target]; omega))
  | runCompare n =>
    rw [hpc] at hn hknow
    cases hn
    obtain ⟨h1, hne⟩ := hknow
    split
    · exact reads ⟨h1, ‹_›⟩ (by rw [hpc]; rfl) (by rw [hpc]; nofun) (.inr (by rw [hpc]; rfl))
    · exact reads (by simp only [Pc.Knows]; omega) (by rw [hpc]; rfl) (by rw [hpc]; nofun)
        (.inr (by rw [hpc]; rfl))
  | shrinkCopy n =>
    rw [hpc] at hn hknow
    obtain ⟨h1, hlt⟩ := hknow
    simp only [next, if_neg (Nat.not_lt.mpr (Nat.le_of_lt hlt))] at hn
    cases hn
    have hlen : (s.shared.polls.take n).length = n := by simp [Nat.le_of_lt hlt]
    refine reads ⟨by omega, by omega, List.take_prefix _ _, fun t p h h' => by omega⟩
      (by rw [hpc]; rfl) (by rw [hpc]; nofun) (.inr ?_)
    rw [hpc]
    simp [Pc.target, Nat.le_of_lt hlt]
  | shrinkClose idx polls =>
    rw [hpc] at hn hknow
    have ha := hacc (by rw [hpc]; rfl)
    simp only [next] at hn
    split at hn
    · rename_i p he
      cases hn
      obtain ⟨h1, hle, hpre, hcl⟩ := hknow
      refine hs.inside hc rfl rfl rfl id ⟨h1, by omega, hpre, fun t q ht ht' hq => ?_⟩
        (.inr (by rw [hpc]; rfl))
        (fun _ => ⟨ha.isSome, fun q hq => (ha.opened q hq).imp_right
          fun h => List.mem_cons_of_mem _ h⟩)
        fun _ => hstock (by rw [hpc]; nofun)
      rcases Nat.lt_succ_iff_lt_or_eq.mp ht' with hlt | rfl
      · exact List.mem_cons_of_mem _ (hcl t q ht hlt hq)
      · have : p = q := by simpa [he] using hq
        simp [this]
    · rename_i he
      have := ha.isSome none (List.mem_of_getElem? he)
      simp at this
    · rename_i he
      cases hn
      exact reads ⟨hknow.1, accounted_shrunk ha hknow he⟩ (by rw [hpc]; rfl) (by rw [hpc]; nofun)
        (.inr (by rw [hpc]; rfl))
  | growCopy n =>
    rw [hpc] at hn hknow
    cases hn
    simp only [Pc.Knows] at hknow
    exact reads ⟨hknow, by rw [List.take_of_length_le (Nat.le_of_lt hknow)]⟩ (by rw [hpc]; rfl)
      (by rw [hpc]; nofun) (.inr (by rw [hpc]; rfl))
  | growLen n polls =>
    rw [hpc] at hn hknow
    cases hn
    obtain ⟨hlt, rfl⟩ := hknow
    have ha := hacc (by rw [hpc]; rfl)
    refine reads ⟨by omega, by simp; omega, Nat.le_of_lt hlt, ?_⟩ (by rw [hpc]; rfl)
      (by rw [hpc]; nofun) (.inr (by rw [hpc]; rfl))
    simpa using ha
  | growOpen idx n polls =>
    rw [hpc] at hn hknow
    obtain ⟨h1, hlen, hle, ha⟩ := hknow
    simp only [next] at hn
    split at hn
    · rename_i hlt
      cases hn
      exact hs.inside hc rfl rfl rfl id
        ⟨h1, by simpa using hlen, hlt, accounted_grown ha (hlen ▸ hlt)⟩ (.inr (by rw [hpc]; rfl))
        nofun
        fun _ => hstock (by rw [hpc]; nofun)
    · cases hn
      rw [List.take_of_length_le (by omega)] at ha
      exact hs.inside hc rfl rfl rfl id ⟨by omega, ha⟩ (.inr (by rw [hpc]; simp [Pc.target, hlen]))
        nofun
        fun _ => hstock (by rw [hpc]; nofun)
  | storePolls polls =>
    rw [hpc] at hn hknow
    cases hn
    obtain ⟨h1, ha⟩ := hknow
    exact hs.inside hc rfl rfl rfl id (List.ne_nil_of_length_pos h1) (.inr (by rw [hpc]; rfl))
      (fun _ => ⟨ha.isSome, ha.opened⟩) fun h => absurd rfl h
  | rebalance =>
    rw [hpc] at hn hknow
    cases hn
    have ha := hacc (by rw [hpc]; rfl)
    exact hs.inside hc rfl rfl rfl (fun _ => hknow) hknow (.inr (by rw [hpc]; rfl))
      (fun _ => ⟨ha.isSome, ha.opened⟩) fun _ h => h
  | _ => simp [hpc, Pc.inRun] at hk

end Serial

/-- `SetNumLoops` is called with an `int32`, and does not reset the status while a `Pick`
has it. -/
def Label.orderly (s : System) : Label → Bool
  | .setNumLoops _ n => decide (n < 2 ^ 31)
  | .run k => !(s.pc k == .setStatus && s.shared.status == .initializing)
  | .pick _ => true

theorem Serial.step {s s' : System} {a : Label} (hs : Serial s) (ha : a.orderly s = true)
    (h : step s a = some s') : Serial s' := by
  cases a with
  | pick k =>
    obtain ⟨hk, h⟩ := Option.ite_none_right_eq_some.mp h
    cases h
    exact hs.look (by rw [hk]; rfl) (by rw [hk]; nofun) rfl trivial
  | setNumLoops k n =>
    obtain ⟨hk, h⟩ := Option.ite_none_right_eq_some.mp h
    split at h
    · cases h
      exact hs
    · rename_i hn
      cases h
      exact hs.look (by rw [hk]; rfl) (by rw [hk]; nofun) rfl
        ⟨by omega, by simpa [Label.orderly] using ha⟩
  | run k =>
    obtain ⟨⟨m, p⟩, hn, rfl⟩ := Option.map_eq_some_iff.mp h
    have hknow : (s.pc k).Knows s.shared := hs.knows k
    cases hrun : (s.pc k).inRun with
    | true => exact hs.run hrun hn
    | false =>
      cases hpc : s.pc k with
      | setLoops n =>
        rw [hpc] at hn
        cases hn
        exact hs.setLoops hpc
      | setStatus =>
        rw [hpc] at hn
        cases hn
        exact hs.setStatus hpc (by simpa [Label.orderly, hpc] using ha)
      | pickStatus =>
        rw [hpc] at hn
        cases hn
        refine hs.look (by rw [hpc]; rfl) (by rw [hpc]; nofun) (by split <;> rfl) ?_
        split
        · exact hs.ready ‹_›
        · trivial
      | pickCas =>
        rw [hpc] at hn
        simp only [next] at hn
        split at hn
        · cases hn
          exact hs.pickCas hpc ‹_›
        · cases hn
          exact hs.look (by rw [hpc]; rfl) (by rw [hpc]; nofun) rfl trivial
      | pickFinish =>
        have hst := hs.held k (by rw [hpc]; rfl)
        rw [hpc] at hn
        simp only [next, if_pos hst] at hn
        cases hn
        exact hs.pickFinish hpc
      | pickBalance =>
        rw [hpc] at hn hknow
        simp only [next, if_neg hknow] at hn
        cases hn
        exact hs.look (by rw [hpc]; rfl) (by rw [hpc]; nofun) rfl trivial
      | idle | panicked =>
        rw [hpc] at hn
        cases hn
      | _ => simp [hpc, Pc.inRun] at hrun

theorem Serial.init {n : Int} (h1 : 1 ≤ n) (h2 : n < 2 ^ 31) : Serial (init n) where
  unique := nofun
  held := nofun
  knows := fun _ => trivial
  last := ⟨int32_eq h1 h2, h1⟩
  target := nofun
  current := fun h => by simp [PollManager.init, newManager] at h
  accounted := fun h => absurd ⟨nofun, nofun⟩ h
  stocked := fun h => by simp [PollManager.init, newManager] at h
  ready := nofun

/-- As long as no `SetNumLoops` resets the status under a `Pick` that has it, at most one
goroutine is inside `Run`, no poller is lost by it, and the manager ends up with the
number of pollers set last. -/
theorem run_serialised {n : Int} (h1 : 1 ≤ n) (h2 : n < 2 ^ 31) {s : System}
    (hr : Reach step (fun s a => a.orderly s) (init n) s) :
    (∀ i k, (s.pc i).inRun = true → (s.pc k).inRun = true → i = k) ∧
      ((∀ k, (s.pc k).inRun = false) →
        ∀ p < s.shared.opened, some p ∈ s.shared.polls ∨ p ∈ s.shared.closed) ∧
      ((∀ k, s.pc k = .idle) → s.shared.status = .initialized →
        (s.shared.polls.length : Int) = s.shared.last) := by
  have hs : Serial s := hr.invariant (.init h1 h2) fun _ _ _ hs ha h => hs.step ha h
  refine ⟨fun i k hi hk => ?_, fun hno => ?_, fun hidle hst => ?_⟩
  · exact hs.unique i k (Pc.critical_of_inRun hi) (Pc.critical_of_inRun hk)
  · refine Accounted.opened ?_
    by_contra hn
    obtain ⟨k, hk⟩ := hs.accounted hn
    simpa [hno k] using Pc.inRun_of_renewing hk
  · rw [← hs.last.1]
    by_contra hne
    obtain ⟨k, hk⟩ := hs.current ⟨hst, hne⟩
    simp [hidle k] at hk

def resized : List Label := List.flatten
  [[.pick 0], List.replicate 13 (.run 0), [.setNumLoops 1 3, .run 1, .run 1],
   [.pick 0], List.replicate 14 (.run 0), [.setNumLoops 1 2, .run 1, .run 1],
   [.pick 0], List.replicate 12 (.run 0)]

theorem run_serialised_resized :
    ∃ s : System, Reach step (fun s a => a.orderly s) (init 1) s ∧ (∀ k, s.pc k = .idle) ∧
      s.shared.status = .initialized ∧ s.shared.polls = [some 0, some 1] ∧ s.shared.closed = [2] ∧
      (s.shared.polls.length : Int) = s.shared.last := by
  have hrun : ∃ s, runs (guarded step fun s a => a.orderly s) (init 1) resized = some s ∧
      (∀ k, s.pc k = .idle) ∧ s.shared.status = .initialized ∧ s.shared.polls = [some 0, some 1] ∧
      s.shared.closed = [2] := by
    refine ⟨_, rfl, fun k => ?_, rfl, rfl, rfl⟩
    match k with
    | 0 | 1 => rfl
    | k + 2 => rfl
  obtain ⟨s, hs, hidle, hst, hp, hc⟩ := hrun
  have hr := Reach.of_runs hs
  exact ⟨s, hr, hidle, hst, hp, hc, (run_serialised (by decide) (by decide) hr).2.2 hidle hst⟩

def overlap : List Label := List.flatten
  [[.pick 0], List.replicate 8 (.run 0), [.setNumLoops 1 2, .run 1, .run 1],
  [.pick 2, .run 2, .run 2]]

def overlapDone : List Label := List.flatten
  [overlap, List.replicate 12 (.run 2), List.replicate 5 (.run 0)]

/-- Two goroutines are inside `Run`; in the end its two pollers are neither in `polls`
nor closed, and there is one poller instead of two. -/
theorem runs_overlap :
    (∃ s : System, Reach step (fun _ _ => True) (init 1) s ∧ (s.pc 0).inRun = true ∧
      (s.pc 2).inRun = true) ∧
    ∃ s : System, Reach step (fun _ _ => True) (init 1) s ∧ (∀ k, s.pc k = .idle) ∧
      s.shared.status = .initialized ∧ s.shared.opened = 3 ∧ s.shared.polls = [some 0] ∧
      s.shared.closed = [] ∧ s.shared.last = 2 := by
  have hin : ∃ s, runs (guarded step fun _ _ => true) (init 1) overlap = some s ∧
      (s.pc 0).inRun = true ∧ (s.pc 2).inRun = true := ⟨_, rfl, rfl, rfl⟩
  have hend : ∃ s, runs (guarded step fun _ _ => true) (init 1) overlapDone = some s ∧
      (∀ k, s.pc k = .idle) ∧ s.shared.status = .initialized ∧ s.shared.opened = 3 ∧
      s.shared.polls = [some 0] ∧ s.shared.closed = [] ∧ s.shared.last = 2 := by
    refine ⟨_, rfl, fun k => ?_, rfl, rfl, rfl, rfl, rfl⟩
    match k with
    | 0 | 1 | 2 => rfl
    | k + 3 => rfl
  obtain ⟨s, hs, h0, h2⟩ := hin
  obtain ⟨e, he, hrest⟩ := hend
  exact ⟨⟨s, (Reach.of_runs hs).mono fun _ _ _ _ => trivial, h0, h2⟩,
    e, (Reach.of_runs he).mono fun _ _ _ _ => trivial, hrest⟩

end Netpoll.PollManager
