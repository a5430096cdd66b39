import Netpoll.Connection.Serve
import Netpoll.Lib.Registry

/-! `server.connections`.  Every connection is one of `Netpoll.Connection`, live on its
own poller as soon as `init` has registered it; around its steps stands the rest of
`server.onAccept`, which adds the callback that deletes the entry and then stores it. -/

namespace Netpoll.Connection

open Netpoll.Lib.Threads Netpoll.Lib.Transition

variable {h : Handlers} {onRequest : Bool} {s s' : System} {a : Label}

def Standing (s : System) : Prop := s.shared.traversals = 0 ∨ ∃ k, s.pc k = .ccRun

theorem next_ccRun {c : Conn} {k j : Nat} {p : Pc} {m : Move Conn Pc}
    (hn : next h c k j p = some m) :
    p = .ccLoad ∧ m.pc = .ccRun ∨ m.shared.traversals = c.traversals ∧ m.pc ≠ .ccRun := by
  cases p
  all_goals
    simp only [next, Pc.return] at hn
    (try split_ifs at hn) <;> cases hn
  all_goals simp

theorem next_fdOpen {c : Conn} {k j : Nat} {p : Pc} {m : Move Conn Pc}
    (hn : next h c k j p = some m) :
    (p = .finFd ∨ m.shared.fdOpen = c.fdOpen) ∧ (m.shared.fdOpen = true → c.fdOpen = true) := by
  cases p
  all_goals
    simp only [next] at hn
    (try split_ifs at hn) <;> cases hn
  all_goals simp_all

theorem fdOpen_of_step (hs : step h s a = some s') (hopen : s'.shared.fdOpen = true) :
    s.shared.fdOpen = true := by
  cases step_cases hs with
  | begins hb => exact hb.fdOpen ▸ hopen
  | consume => exact hopen
  | panic => exact hopen
  | move _ hn => exact (next_fdOpen hn).2 hopen
  | spawn _ hn => exact (next_fdOpen hn).2 hopen

theorem next_accepts {c : Conn} {k j : Nat} {p : Pc} {m : Move Conn Pc}
    (hn : next h c k j p = some m) :
    m.pc ≠ .acceptActive ∧ m.shared.accepted = c.accepted := by
  cases p
  all_goals
    simp only [next, Pc.return] at hn
    (try split_ifs at hn) <;> cases hn
  all_goals simp

theorem acceptActive_step (hs : step h s a = some s') (hacc : s.shared.accepted = true) :
    s'.shared.accepted = true ∧
      (s'.pc 1 = .acceptActive → s.pc 1 = .acceptActive ∧ ∀ j, a ≠ .run 1 j) := by
  cases step_cases hs with
  | @begins i p c hb =>
    obtain ⟨-, -, hno, -⟩ | ⟨hp, hc⟩ := hb.accept
    · simp [hacc] at hno
    refine ⟨hc.trans hacc, fun h1 => ?_⟩
    have h1i : 1 ≠ i := by
      rintro rfl
      exact hp (by simpa using h1)
    refine ⟨by simpa [h1i] using h1, ?_⟩
    rintro j rfl
    obtain ⟨m, hn, -, hpc, -⟩ := run_pc hs
    exact (next_accepts hn).1 (hpc.symm.trans h1)
  | consume =>
    refine ⟨hacc, fun h1 => ⟨h1, ?_⟩⟩
    rintro j rfl
    obtain ⟨m, hn, -, hpc, -⟩ := run_pc hs
    exact (next_accepts hn).1 (hpc.symm.trans h1)
  | @panic i ha =>
    refine ⟨hacc, fun h1 => ⟨?_, fun j he => by simp [ha] at he⟩⟩
    have h1i : 1 ≠ i := by
      rintro rfl
      simp at h1
    simpa [h1i] using h1
  | @move i j c p ha hn =>
    refine ⟨(next_accepts hn).2.trans hacc, fun h1 => ?_⟩
    have h1i : 1 ≠ i := by
      rintro rfl
      exact (next_accepts hn).1 (by simpa using h1)
    refine ⟨by simpa [h1i] using h1, fun l he => ?_⟩
    rw [ha] at he
    exact h1i (by simpa using (Label.run.inj he).1.symm)
  | @spawn i j c p t ha hn hj hji =>
    refine ⟨(next_accepts hn).2.trans hacc, fun h1 => ?_⟩
    have h1j : 1 ≠ j := by omega
    have h1i : 1 ≠ i := by
      rintro rfl
      exact (next_accepts hn).1 (by simpa [h1j] using h1)
    refine ⟨by simpa [h1j, h1i] using h1, fun l he => ?_⟩
    rw [ha] at he
    exact h1i (by simpa using (Label.run.inj he).1.symm)

theorem ccRun_step (hs : step h s a = some s') {k : Nat} (hk : s'.pc k = .ccRun) :
    s.pc k = .ccRun ∨ s.pc k = .ccLoad ∧ ∃ j, a = .run k j := by
  cases step_cases hs with
  | @begins i p c hb =>
    rcases eq_or_ne k i with rfl | hki
    · have hp : p = .ccRun := by simpa using hk
      simpa [hp, Pc.entry] using hb.entry
    · exact .inl (by simpa [hki] using hk)
  | consume => exact .inl hk
  | @panic i =>
    rcases eq_or_ne k i with rfl | hki
    · simp at hk
    · exact .inl (by simpa [hki] using hk)
  | @move i j c p ha hn =>
    rcases eq_or_ne k i with rfl | hki
    · obtain ⟨hl, -⟩ | ⟨-, hne⟩ := next_ccRun hn
      · exact .inr ⟨hl, j, ha⟩
      · exact absurd (by simpa using hk) hne
    · exact .inl (by simpa [hki] using hk)
  | @spawn i j c p t ha hn _ hji =>
    obtain ⟨conn, req, rfl⟩ := next_task hn rfl
    rcases eq_or_ne k j with rfl | hkj
    · simp at hk
    · rcases eq_or_ne k i with rfl | hki
      · obtain ⟨hl, -⟩ | ⟨-, hne⟩ := next_ccRun hn
        · exact .inr ⟨hl, j, ha⟩
        · exact absurd (by simpa [hkj] using hk) hne
      · exact .inl (by simpa [hkj, hki] using hk)

theorem standing_step (hl : Locked s) (ha : a.installed) (hs : step h s a = some s')
    (hrun : ∀ k j, a = .run k j → s.pc k ≠ .ccRun) : Standing s' ↔ Standing s := by
  constructor
  · rintro (ht | ⟨k, hk⟩)
    · exact .inl (Nat.le_zero.mp (ht ▸ (step_later hs).traversals))
    · obtain hk | ⟨hk, -⟩ := ccRun_step hs hk
      · exact .inr ⟨k, hk⟩
      · exact .inl (hl.before k (by rw [hk]; rfl) (by rw [hk]; rfl))
  · rintro (ht | ⟨k, hk⟩)
    · cases a with
      | run k j =>
        obtain ⟨m, hn, hsh, hpc, -⟩ := run_pc hs
        obtain ⟨-, hr⟩ | ⟨he, -⟩ := next_ccRun hn
        · exact .inr ⟨k, hpc.trans hr⟩
        · exact .inl (by rw [hsh, he, ht])
      | _ => exact .inl ((unmoved_of_not_run hs (by simp)).traversals.trans ht)
    · refine .inr ⟨k, (pc_stays hs (by rw [hk]; nofun) (fun j he => hrun k j he hk) ?_).trans hk⟩
      rintro rfl
      simp [Label.installed] at ha

theorem not_standing_of_ccRun (hl : Locked s) {k j : Nat} (hk : s.pc k = .ccRun)
    (hs : step h s (.run k j) = some s') : ¬ Standing s' := by
  have h1 : s.shared.traversals = 1 := hl.during k (by rw [hk]; rfl)
  obtain ⟨m, hn, hsh, hpc, -⟩ := run_pc hs
  rw [hk] at hn
  cases hn
  rintro (ht | ⟨i, hi⟩)
  · rw [hsh, h1] at ht
    simp at ht
  · have hik : i ≠ k := by
      rintro rfl
      simp [hpc] at hi
    obtain hi | ⟨hi, -⟩ := ccRun_step hs hi <;>
      exact hik (hl.owned.unique i k (by rw [hi]; rfl) (by rw [hk]; rfl))

theorem fdOpen_of_standing (hr : Reach (step h) (fun _ a => a.installed) (init onRequest) s)
    (hst : Standing s) : s.shared.fdOpen = true := by
  induction hr with
  | refl => rfl
  | @tail s a s' hr ha hs ih =>
    have hl := locked_of_installed hr
    by_cases hcc : ∃ k j, a = .run k j ∧ s.pc k = .ccRun
    · obtain ⟨k, j, rfl, hk⟩ := hcc
      exact absurd hst (not_standing_of_ccRun hl hk hs)
    have hst' := (standing_step hl ha hs fun k j he hk => hcc ⟨k, j, he, hk⟩).mp hst
    have hopen := ih hst'
    have hfd {k j : Nat} {m : Move Conn Pc} (hn : next h s.shared k j (s.pc k) = some m) :
        m.shared.fdOpen = true := by
      obtain hk | he := (next_fdOpen hn).1
      · -- whoever closes the fd is in the traversal, past the callbacks
        have h1 := hl.during k (by rw [hk]; rfl)
        rcases hst' with h0 | ⟨i, hi⟩
        · omega
        · obtain rfl := hl.owned.unique i k (by rw [hi]; rfl) (by rw [hk]; rfl)
          simp [hk] at hi
      · exact he.trans hopen
    cases step_cases hs with
    | begins hb => exact hb.fdOpen.trans hopen
    | consume => exact hopen
    | panic => exact hopen
    | move _ hn => exact hfd hn
    | spawn _ hn => exact hfd hn

end Netpoll.Connection

namespace Netpoll.ServerRegistry

open Netpoll.Lib.Transition Netpoll.Lib.Registry
open Netpoll.Connection (Handlers Standing)

inductive AcceptPc
  | idle | addCloseCallback | store
  deriving DecidableEq, Repr

structure Entry where
  fd : Nat
  conn : Connection.System
  onAccept : AcceptPc
  added : Bool
  latest : Nat → Bool

structure Server where
  conns : Nat → Option Entry
  connections : Nat → Option Nat
  files : Nat → Bool

inductive Label
  | accept (id fd : Nat)
  | conn (id : Nat) (a : Connection.Label)
  | onAccept (id : Nat)
  deriving DecidableEq, Repr

namespace Entry

def new (onRequest : Bool) (fd : Nat) : Entry where
  fd := fd
  conn := (Connection.init onRequest).enter
    { (Connection.init onRequest).shared with accepted := true } 1
    .acceptActive
  onAccept := .idle
  added := false
  latest := fun _ => false

def mayStep (e : Entry) : Connection.Label → Bool
  | .run 1 _ => e.onAccept == .idle
  | _ => true

def onAcceptAfter (e : Entry) : Connection.Label → AcceptPc
  | .run 1 _ => if e.conn.pc 1 = .acceptActive ∧ e.conn.shared.isActive then .addCloseCallback
      else e.onAccept
  | _ => e.onAccept

def latestAfter (e : Entry) : Connection.Label → Nat → Bool
  | .run k _ => if e.conn.pc k = .ccLoad then Function.update e.latest k e.added else e.latest
  | _ => e.latest

def deletes (e : Entry) : Connection.Label → Bool
  | .run k _ => e.conn.pc k == .ccRun && e.latest k
  | _ => false

def after (e : Entry) (a : Connection.Label) (t : Connection.System) : Entry :=
  { e with conn := t, onAccept := e.onAcceptAfter a, latest := e.latestAfter a }

end Entry

namespace Server

def set (s : Server) (id : Nat) (e : Entry) : Server :=
  { s with conns := Function.update s.conns id (some e) }

def closeFd (s : Server) (e : Entry) (t : Connection.System) : Nat → Bool :=
  if e.conn.shared.fdOpen && !t.shared.fdOpen then Function.update s.files e.fd false else s.files

def step (h : Handlers) (onRequest : Bool) (s : Server) : Label → Option Server
  | .accept id fd =>
    if s.conns id = none ∧ s.files fd = false then
      some { s.set id (.new onRequest fd) with files := Function.update s.files fd true }
    else none
  | .conn id a => do
    let e ← s.conns id
    if e.mayStep a then do
      let t ← Connection.step h e.conn a
      return { s.set id (e.after a t) with
        connections := if e.deletes a then Function.update s.connections e.fd none
          else s.connections
        files := s.closeFd e t }
    else none
  | .onAccept id => do
    let e ← s.conns id
    match e.onAccept with
    | .idle => none
    | .addCloseCallback => some (s.set id { e with added := true, onAccept := .store })
    | .store =>
      some { s.set id { e with onAccept := .idle } with
        connections := Function.update s.connections e.fd (some id) }

def init : Server := ⟨fun _ => none, fun _ => none, fun _ => false⟩

@[simp] theorem set_conns_self (s : Server) (id : Nat) (e : Entry) :
    (s.set id e).conns id = some e := by
  simp [set]

@[simp] theorem set_conns_of_ne (s : Server) (e : Entry) {id i : Nat} (hi : i ≠ id) :
    (s.set id e).conns i = s.conns i := by
  simp [set, hi]

end Server

/-- The handlers are those of the options and do not panic, and no traversal of the close
callbacks begins between the test of `IsActive` in `onAccept` and its store. -/
def Label.unhurried (s : Server) : Label → Bool
  | .conn id a => a.installed && match s.conns id, a with
    | some e, .run k _ => e.conn.pc k != .ccLoad || e.onAccept == .idle
    | _, _ => true
  | _ => true

def Entry.Registered (e : Entry) : Prop :=
  e.added = true ∧ e.onAccept = .idle ∧ Standing e.conn

structure Entry.Ok (h : Handlers) (onRequest : Bool) (e : Entry) : Prop where
  reach : Reach (Connection.step h) (fun _ a => a.installed) (Connection.init onRequest) e.conn
  accepted : e.conn.shared.accepted = true
  waiting : e.onAccept ≠ .idle → e.conn.shared.traversals = 0
  stored : e.onAccept = .store → e.added = true
  testing : e.conn.pc 1 = .acceptActive → e.added = false ∧ e.onAccept = .idle
  refused : e.onAccept = .idle → e.added = false →
    e.conn.pc 1 = .acceptActive ∨ e.conn.shared.closing ≠ .none
  latest : ∀ k, e.conn.pc k = .ccRun → e.latest k = e.added

namespace Entry.Ok

variable {h : Handlers} {onRequest : Bool} {e : Entry} {a : Connection.Label}
  {t : Connection.System}

theorem new (fd : Nat) : (Entry.new onRequest fd).Ok h onRequest where
  reach := .tail (a := .accept) .refl rfl (by simp [Connection.step, Connection.init, Entry.new])
  accepted := rfl
  waiting := fun hne => absurd rfl hne
  stored := nofun
  testing := fun _ => ⟨rfl, rfl⟩
  refused := fun _ _ => .inl (by simp [Entry.new])
  latest := by
    intro k hk
    rcases eq_or_ne k 1 with rfl | hk1
    · simp [Entry.new] at hk
    · simp [Entry.new, hk1, Connection.init] at hk

theorem locked (he : e.Ok h onRequest) : Connection.Locked e.conn :=
  Connection.locked_of_installed he.reach

theorem idle_of_ccRun (he : e.Ok h onRequest) {k : Nat} (hk : e.conn.pc k = .ccRun) :
    e.onAccept = .idle := by
  by_contra hne
  have h0 := he.waiting hne
  have h1 := he.locked.during k (by rw [hk]; rfl)
  omega

theorem registered_of_deletes (he : e.Ok h onRequest) {k : Nat} (hk : e.conn.pc k = .ccRun)
    (hl : e.latest k = true) : e.Registered :=
  ⟨he.latest k hk ▸ hl, he.idle_of_ccRun hk, .inr ⟨k, hk⟩⟩

theorem fdOpen_of_registered (he : e.Ok h onRequest) (hr : e.Registered) :
    e.conn.shared.fdOpen = true :=
  Connection.fdOpen_of_standing he.reach hr.2.2

theorem onAcceptAfter_eq (he : e.Ok h onRequest) (hadd : e.added = true) :
    e.onAcceptAfter a = e.onAccept := by
  unfold Entry.onAcceptAfter
  split
  · refine if_neg fun hc => ?_
    have hno := (he.testing hc.1).1
    simp [hadd] at hno
  · rfl

theorem after (he : e.Ok h onRequest) (ha : a.installed = true)
    (hcc : ∀ k j, a = .run k j → e.conn.pc k = .ccLoad → e.onAccept = .idle)
    (hs : Connection.step h e.conn a = some t) : (e.after a t).Ok h onRequest := by
  have hl := he.locked
  have hkeep (h0 : e.conn.shared.traversals = 0)
    (hne : ∀ k j, a = .run k j → e.conn.pc k ≠ .ccLoad) :
      t.shared.traversals = 0 := by
    cases a with
    | run k j =>
      obtain ⟨m, hn, hsh, -⟩ := Connection.run_pc hs
      obtain ⟨hk, -⟩ | ⟨heq, -⟩ := Connection.next_ccRun hn
      · exact absurd hk (hne k j rfl)
      · rw [hsh, heq, h0]
    | _ => exact (Connection.unmoved_of_not_run hs (by simp)).traversals.trans h0
  have hacc := Connection.acceptActive_step hs he.accepted
  have honAccept : e.onAcceptAfter a = e.onAccept ∨ e.onAcceptAfter a = .addCloseCallback ∧
      (∃ j, a = .run 1 j) ∧ e.conn.pc 1 = .acceptActive ∧ e.conn.shared.closing = .none := by
    unfold Entry.onAcceptAfter
    split
    · split
      · rename_i j hc
        exact .inr ⟨rfl, ⟨j, rfl⟩, hc.1, by simpa [Connection.Conn.isActive] using hc.2⟩
      · exact .inl rfl
    · exact .inl rfl
  refine ⟨he.reach.tail ha hs, hacc.1, fun hne => ?_, fun hst => ?_, fun h1 => ?_,
    fun hid hadd => ?_, fun k hk => ?_⟩
  · rcases honAccept with heq | ⟨-, ⟨j, rfl⟩, h1, hnone⟩
    · have hne' : e.onAccept ≠ .idle := by simpa [Entry.after, heq] using hne
      exact hkeep (he.waiting hne') fun k j hr hk => hne' (hcc k j hr hk)
    · refine hkeep ?_ fun k l hr hk => ?_
      · have hle := hl.begun_le
        have hno : e.conn.shared.traversals ≠ 1 :=
          fun h => Connection.closing_of_traversals (Connection.calm_of_installed he.reach) h hnone
        omega
      · obtain ⟨rfl, -⟩ := Connection.Label.run.inj hr
        simp [h1] at hk
  · rcases honAccept with heq | ⟨heq, -⟩
    · exact he.stored (by simpa [Entry.after, heq] using hst)
    · simp [Entry.after, heq] at hst
  · obtain ⟨h1, hrun⟩ := hacc.2 h1
    rcases honAccept with heq | ⟨-, ⟨j, hr⟩, -⟩
    · simpa [Entry.after, heq] using he.testing h1
    · exact absurd hr (hrun j)
  · rcases honAccept with heq | ⟨heq, -⟩
    · have hid' : e.onAccept = .idle := by simpa [Entry.after, heq] using hid
      rcases he.refused hid' hadd with h1 | hc
      · by_cases hr : ∃ j, a = .run 1 j
        · -- the test has found the connection closed
          obtain ⟨j, rfl⟩ := hr
          right
          refine (Connection.step_later hs).closing fun hnone => ?_
          simp [Entry.onAcceptAfter, h1, Connection.Conn.isActive, hnone, hid'] at heq
        · left
          refine (Connection.pc_stays hs (by rw [h1]; nofun) (fun j hj => hr ⟨j, hj⟩) ?_).trans h1
          rintro rfl
          simp [Connection.Label.installed] at ha
      · exact .inr ((Connection.step_later hs).closing hc)
    · simp [Entry.after, heq] at hid
  · -- the traversal that comes to the callbacks has just loaded them
    obtain hk' | ⟨hk', j, rfl⟩ := Connection.ccRun_step hs hk
    · refine (congrFun ?_ k).trans (he.latest k hk')
      cases a with
      | run i j =>
        refine if_neg fun hi => ?_
        obtain rfl := hl.owned.unique i k (by rw [hi]; rfl) (by rw [hk']; rfl)
        simp [hk'] at hi
      | _ => rfl
    · simp [Entry.after, Entry.latestAfter, hk']

theorem addCloseCallback (he : e.Ok h onRequest) (hp : e.onAccept = .addCloseCallback) :
    ({ e with added := true, onAccept := .store } : Entry).Ok h onRequest where
  reach := he.reach
  accepted := he.accepted
  waiting := fun _ => he.waiting (by simp [hp])
  stored := fun _ => rfl
  testing := fun h1 => absurd (hp.symm.trans (he.testing h1).2) nofun
  refused := nofun
  latest := fun k hk => absurd (hp.symm.trans (he.idle_of_ccRun hk)) nofun

theorem store (he : e.Ok h onRequest) (hp : e.onAccept = .store) :
    ({ e with onAccept := .idle } : Entry).Ok h onRequest where
  reach := he.reach
  accepted := he.accepted
  waiting := fun hne => absurd rfl hne
  stored := nofun
  testing := fun h1 => absurd (hp.symm.trans (he.testing h1).2) nofun
  refused := fun _ hadd => by simp [he.stored hp] at hadd
  latest := he.latest

end Entry.Ok

/-- Connection `id` has to be in the registry under `fd`. -/
def Owns (s : Server) (id fd : Nat) : Prop :=
  ∃ e, s.conns id = some e ∧ e.fd = fd ∧ e.Registered

structure Consistent (h : Handlers) (onRequest : Bool) (s : Server) : Prop where
  ok : ∀ id e, s.conns id = some e → e.Ok h onRequest
  exact : Exact s.connections (Owns s)
  files : ∀ id e, s.conns id = some e → e.conn.shared.fdOpen = true → s.files e.fd = true
  distinct : ∀ id e id' e', s.conns id = some e → s.conns id' = some e' →
    e.conn.shared.fdOpen = true → e'.conn.shared.fdOpen = true → e.fd = e'.fd → id = id'

namespace Consistent

variable {h : Handlers} {onRequest : Bool} {s s' : Server} {id fd : Nat} {e e' : Entry}

theorem init : Consistent h onRequest Server.init where
  ok := fun _ _ he => by simp [Server.init] at he
  exact := fun _ _ => by simp [Server.init, Owns]
  files := fun _ _ he => by simp [Server.init] at he
  distinct := fun _ _ _ _ he => by simp [Server.init] at he

theorem owns_of_ne (hc : ∀ i, i ≠ id → s'.conns i = s.conns i) {i : Nat} (hi : i ≠ id) (fd : Nat) :
    Owns s' i fd ↔ Owns s i fd := by
  simp only [Owns, hc i hi]

theorem owns_iff (he : s.conns id = some e) (fd : Nat) :
    Owns s id fd ↔ e.fd = fd ∧ e.Registered := by
  constructor
  · rintro ⟨g, hg, hrest⟩
    cases he.symm.trans hg
    exact hrest
  · exact fun hrest => ⟨e, he, hrest⟩

theorem distinct_set (hs : Consistent h onRequest s) (he : s.conns id = some e)
    (he' : s'.conns id = some e') (hc : ∀ i, i ≠ id → s'.conns i = s.conns i) (hfd : e'.fd = e.fd)
    (hopen : e'.conn.shared.fdOpen = true → e.conn.shared.fdOpen = true) :
    ∀ i g i' g', s'.conns i = some g → s'.conns i' = some g' → g.conn.shared.fdOpen = true →
      g'.conn.shared.fdOpen = true → g.fd = g'.fd → i = i' := by
  have before : ∀ i g, s'.conns i = some g → ∃ g₀, s.conns i = some g₀ ∧ g.fd = g₀.fd ∧
      (g.conn.shared.fdOpen = true → g₀.conn.shared.fdOpen = true) := by
    intro i g hg
    rcases eq_or_ne i id with rfl | hi
    · cases he'.symm.trans hg
      exact ⟨e, he, hfd, hopen⟩
    · exact ⟨g, (hc i hi) ▸ hg, rfl, fun ho => ho⟩
  intro i g i' g' hg hg' ho ho' heq
  obtain ⟨g₀, hg₀, hf, hop⟩ := before i g hg
  obtain ⟨g₀', hg₀', hf', hop'⟩ := before i' g' hg'
  exact hs.distinct i g₀ i' g₀' hg₀ hg₀' (hop ho) (hop' ho') (by rw [← hf, ← hf', heq])

theorem accept (hs : Consistent h onRequest s) (hid : s.conns id = none)
    (hfd : s.files fd = false) :
    Consistent h onRequest
      { s.set id (.new onRequest fd) with files := Function.update s.files fd true } := by
  have hnew : ¬ (Entry.new onRequest fd).Registered := by simp [Entry.Registered, Entry.new]
  have old : ∀ i g, (s.set id (.new onRequest fd)).conns i = some g →
      i = id ∧ g = .new onRequest fd ∨ i ≠ id ∧ s.conns i = some g := by
    intro i g hg
    rcases eq_or_ne i id with rfl | hi
    · exact .inl ⟨rfl, by simpa using hg.symm⟩
    · exact .inr ⟨hi, by simpa [hi] using hg⟩
  have apart : ∀ i g, s.conns i = some g → g.conn.shared.fdOpen = true → g.fd ≠ fd := by
    rintro i g hg ho rfl
    simp [hs.files i g hg ho] at hfd
  refine ⟨fun i g hg => ?_, hs.exact.congr fun i f => ?_, fun i g hg ho => ?_,
    fun i g i' g' hg hg' ho ho' heq => ?_⟩
  · rcases old i g hg with ⟨-, rfl⟩ | ⟨-, hg⟩
    · exact .new fd
    · exact hs.ok i g hg
  · rcases eq_or_ne i id with rfl | hi
    · simp [Owns, hid, hnew]
    · exact owns_of_ne (s := s) (fun l hl => by simp [hl]) hi f
  · rcases old i g hg with ⟨-, rfl⟩ | ⟨-, hg⟩
    · simp [Entry.new]
    · simp [apart i g hg ho, hs.files i g hg ho]
  · rcases old i g hg with ⟨hi, rfl⟩ | ⟨-, hg⟩ <;> rcases old i' g' hg' with ⟨hi', rfl⟩ | ⟨-, hg'⟩
    · exact hi.trans hi'.symm
    · exact absurd heq.symm (apart i' g' hg' ho')
    · exact absurd heq (apart i g hg ho)
    · exact hs.distinct i g i' g' hg hg' ho ho' heq

theorem conn (hs : Consistent h onRequest s) {a : Connection.Label} {t : Connection.System}
    (he : s.conns id = some e) (ha : a.installed = true)
    (hcc : ∀ k j, a = .run k j → e.conn.pc k = .ccLoad → e.onAccept = .idle)
    (hstep : Connection.step h e.conn a = some t) :
    Consistent h onRequest
      { s.set id (e.after a t) with
        connections := if e.deletes a then Function.update s.connections e.fd none
          else s.connections
        files := s.closeFd e t } := by
  have hok := hs.ok id e he
  have hopen := Connection.fdOpen_of_step hstep
  have hself := Server.set_conns_self s id (e.after a t)
  have hrest : ∀ i, i ≠ id → (s.set id (e.after a t)).conns i = s.conns i :=
    fun i hi => by simp [hi]
  refine ⟨fun i g hg => ?_, ?_, fun i g hg ho => ?_, hs.distinct_set he hself hrest rfl hopen⟩
  · rcases eq_or_ne i id with rfl | hi
    · cases hself.symm.trans hg
      exact hok.after ha hcc hstep
    · exact hs.ok i g (hrest i hi ▸ hg)
  · cases hd : e.deletes a with
    | true =>
      obtain ⟨k, j, rfl, hk, hlat⟩ : ∃ k j, a = .run k j ∧ e.conn.pc k = .ccRun ∧
        e.latest k = true := by
        cases a with
        | run k j => exact ⟨k, j, rfl, by simpa [Entry.deletes] using hd⟩
        | _ => simp [Entry.deletes] at hd
      have hreg := hok.registered_of_deletes hk hlat
      refine hs.exact.delete (i := id) ((owns_iff he e.fd).mpr ⟨rfl, hreg⟩) (fun f hf => ?_)
        (fun f hf => ((owns_iff he f).mp hf).1.symm)
        fun i hi f => owns_of_ne (fun l hl => hrest l hl) hi f
      exact Connection.not_standing_of_ccRun hok.locked hk hstep ((owns_iff hself f).mp hf).2.2.2
    | false =>
      refine hs.exact.congr fun i f => ?_
      rcases eq_or_ne i id with rfl | hi
      · refine (owns_iff hself f).trans (Iff.trans ?_ (owns_iff he f).symm)
        refine and_congr_right fun _ => and_congr_right fun (hadd : e.added = true) => ?_
        refine and_congr (by simp [Entry.after, hok.onAcceptAfter_eq hadd]) ?_
        refine Connection.standing_step hok.locked ha hstep fun k j hr hk => ?_
        subst hr
        simp [Entry.deletes, hk, hok.latest k hk, hadd] at hd
      · exact owns_of_ne (fun l hl => hrest l hl) hi f
  · rcases eq_or_ne i id with rfl | hi
    · cases hself.symm.trans hg
      have ho : t.shared.fdOpen = true := ho
      simpa [Server.closeFd, ho, Entry.after] using hs.files i e he (hopen ho)
    · -- the fd that is closed is not the one of another open connection
      have hg := hrest i hi ▸ hg
      have hf := hs.files i g hg ho
      simp only [Server.closeFd]
      split
      · rename_i hclose
        have hne : g.fd ≠ e.fd := fun heq =>
          hi (hs.distinct i g id e hg he ho (by simp at hclose; exact hclose.1) heq)
        simpa [hne] using hf
      · exact hf

theorem addCloseCallback (hs : Consistent h onRequest s) (he : s.conns id = some e)
    (hp : e.onAccept = .addCloseCallback) :
    Consistent h onRequest (s.set id { e with added := true, onAccept := .store }) := by
  have hself := Server.set_conns_self s id { e with added := true, onAccept := .store }
  have hrest : ∀ i, i ≠ id →
    (s.set id { e with added := true, onAccept := .store }).conns i = s.conns i :=
    fun i hi => by simp [hi]
  refine ⟨fun i g hg => ?_, hs.exact.congr fun i f => ?_, fun i g hg ho => ?_,
    hs.distinct_set he hself hrest rfl fun ho => ho⟩
  · rcases eq_or_ne i id with rfl | hi
    · cases hself.symm.trans hg
      exact (hs.ok i e he).addCloseCallback hp
    · exact hs.ok i g (hrest i hi ▸ hg)
  · rcases eq_or_ne i id with rfl | hi
    · rw [owns_iff hself, owns_iff he]
      simp [Entry.Registered, hp]
    · exact owns_of_ne hrest hi f
  · rcases eq_or_ne i id with rfl | hi
    · cases hself.symm.trans hg
      exact hs.files i e he ho
    · exact hs.files i g (hrest i hi ▸ hg) ho

theorem store (hs : Consistent h onRequest s) (he : s.conns id = some e)
    (hp : e.onAccept = .store) :
    Consistent h onRequest { s.set id { e with onAccept := .idle } with
      connections := Function.update s.connections e.fd (some id) } := by
  have hok := hs.ok id e he
  have hrest : ∀ i, i ≠ id → (s.set id { e with onAccept := .idle }).conns i = s.conns i :=
    fun i hi => by simp [hi]
  have hself := Server.set_conns_self s id { e with onAccept := .idle }
  have hnot : ∀ f, ¬ Owns s id f := by
    intro f hf
    exact absurd (hp.symm.trans ((owns_iff he f).mp hf).2.2.1) nofun
  have hstand : Standing e.conn := .inl (hok.waiting (by simp [hp]))
  refine ⟨fun i g hg => ?_, ?_, fun i g hg ho => ?_,
    hs.distinct_set he hself hrest rfl fun ho => ho⟩
  · rcases eq_or_ne i id with rfl | hi
    · cases hself.symm.trans hg
      exact hok.store hp
    · exact hs.ok i g (hrest i hi ▸ hg)
  · refine hs.exact.store ((owns_iff hself e.fd).mpr ⟨rfl, hok.stored hp, rfl, hstand⟩)
      (fun f hf => ((owns_iff hself f).mp hf).1.symm) hnot (fun i hi => ?_)
      fun i hi f => owns_of_ne (fun l hl => hrest l hl) hi f
    obtain ⟨g, hg, hfd, hreg⟩ := hi
    have hopen := Connection.fdOpen_of_standing hok.reach hstand
    obtain rfl := hs.distinct i g id e hg he ((hs.ok i g hg).fdOpen_of_registered hreg) hopen hfd
    exact hnot e.fd ⟨g, hg, hfd, hreg⟩
  · rcases eq_or_ne i id with rfl | hi
    · cases hself.symm.trans hg
      exact hs.files i e he ho
    · exact hs.files i g (hrest i hi ▸ hg) ho

theorem step {a : Label} (hs : Consistent h onRequest s) (ha : a.unhurried s = true)
    (hstep : s.step h onRequest a = some s') : Consistent h onRequest s' := by
  cases a with
  | accept id fd =>
    obtain ⟨⟨hid, hfd⟩, hstep⟩ := Option.ite_none_right_eq_some.mp hstep
    cases hstep
    exact hs.accept hid hfd
  | conn id a =>
    obtain ⟨e, he, hstep⟩ := Option.bind_eq_some_iff.mp hstep
    obtain ⟨-, hstep⟩ := Option.ite_none_right_eq_some.mp hstep
    obtain ⟨t, ht, hstep⟩ := Option.bind_eq_some_iff.mp hstep
    cases hstep
    simp only [Label.unhurried, he, Bool.and_eq_true] at ha
    refine hs.conn he ha.1 (fun k j hr hk => ?_) ht
    subst hr
    simpa [hk] using ha.2
  | onAccept id =>
    obtain ⟨e, he, hstep⟩ := Option.bind_eq_some_iff.mp hstep
    split at hstep
    · cases hstep
    · cases hstep
      exact hs.addCloseCallback he ‹_›
    · cases hstep
      exact hs.store he ‹_›

end Consistent

def Entry.Quiet (e : Entry) : Prop := e.onAccept = .idle ∧ ∀ k, e.conn.pc k = .idle

/-- For a server with `OnConnect` or `OnRequest`: as long as no connection begins to run
its close callbacks between the test and the store of its `onAccept`, a close callback
deletes no entry but that of its own connection; and when nothing is under way the
registry has exactly the connections whose close callbacks have not run, each under its
fd, and they are active and not processing. -/
theorem registry_exact {h : Handlers} {onRequest : Bool}
    (hh : h.onConnect = true ∨ onRequest = true) {s : Server}
    (hr : Reach (Server.step h onRequest) (fun s a => a.unhurried s) Server.init s) :
    (∀ id e k, s.conns id = some e → e.conn.pc k = .ccRun → e.latest k = true →
      s.connections e.fd = some id) ∧
    ((∀ id e, s.conns id = some e → e.Quiet) →
      (∀ fd id, s.connections fd = some id ↔
        ∃ e, s.conns id = some e ∧ e.fd = fd ∧ e.conn.shared.traversals = 0) ∧
      ∀ fd id e, s.connections fd = some id → s.conns id = some e →
        e.conn.shared.closing = .none ∧ e.conn.shared.processing = none) := by
  have hs : Consistent h onRequest s := hr.invariant .init fun _ _ _ hs ha hst => hs.step ha hst
  refine ⟨fun id e k he hk hlat => ?_, fun hq => ?_⟩
  · exact (hs.exact e.fd id).mpr ⟨e, he, rfl, (hs.ok id e he).registered_of_deletes hk hlat⟩
  have closed : ∀ id e, s.conns id = some e → e.conn.shared.closing ≠ .none →
      e.conn.shared.traversals = 1 := by
    intro id e he hne
    refine (Connection.closeCallbacks_exactly_once h onRequest (hs.ok id e he).reach).2
      (hq id e he).2 ?_
    cases hc : e.conn.shared.closing with
    | none => exact absurd hc hne
    | user => exact .inl rfl
    | poller => exact .inr ⟨rfl, hh⟩
  have standing : ∀ id e, s.conns id = some e → (e.Registered ↔ e.conn.shared.traversals = 0) := by
    intro id e he
    obtain ⟨hidle, hpc⟩ := hq id e he
    constructor
    · rintro ⟨-, -, h0 | ⟨k, hk⟩⟩
      · exact h0
      · simp [hpc k] at hk
    · refine fun h0 => ⟨?_, hidle, .inl h0⟩
      by_contra hadd
      rcases (hs.ok id e he).refused hidle (by simpa using hadd) with h1 | hne
      · simp [hpc 1] at h1
      · have := closed id e he hne
        omega
  have hiff : ∀ fd id, s.connections fd = some id ↔
      ∃ e, s.conns id = some e ∧ e.fd = fd ∧ e.conn.shared.traversals = 0 := by
    intro fd id
    refine (hs.exact fd id).trans (exists_congr fun e => and_congr_right fun he => ?_)
    exact and_congr_right fun _ => standing id e he
  refine ⟨hiff, fun fd id e hfd he => ?_⟩
  obtain ⟨g, hg, -, h0⟩ := (hiff fd id).mp hfd
  cases he.symm.trans hg
  constructor
  · by_contra hne
    have := closed id e he hne
    omega
  · by_contra hne
    obtain ⟨m, hm⟩ := Option.ne_none_iff_exists'.mp hne
    rcases (hs.ok id e he).locked.owner m hm with hh | h1
    · simp [(hq id e he).2 m, Connection.Pc.holds] at hh
    · omega

def reusedFd : List Label := List.flatten
  [[.accept 0 5, .conn 0 (.run 1 0), .onAccept 0, .onAccept 0, .conn 0 (.run 1 0),
  .conn 0 (.run 1 0)],
   [.accept 1 6, .conn 1 (.run 1 0), .onAccept 1, .onAccept 1, .conn 1 (.run 1 0),
     .conn 1 (.run 1 0)],
   [.conn 0 .hup, .conn 0 (.run 0 0), .conn 0 (.run 0 0), .conn 0 .onhups],
   List.replicate 11 (.conn 0 (.run 2 0)),
   [.accept 2 5, .conn 2 (.run 1 0), .onAccept 2, .onAccept 2, .conn 2 (.run 1 0),
     .conn 2 (.run 1 0)]]

theorem registry_exact_reused :
    ∃ s : Server, Reach (Server.step ⟨false, false⟩ true) (fun s a => a.unhurried s) Server.init s ∧
      (∀ id e, s.conns id = some e → e.Quiet) ∧ s.connections 5 = some 2 ∧
      s.connections 6 = some 1 := by
  have hrun : ∃ s e₀ e₁ e₂,
    runs (guarded (Server.step ⟨false, false⟩ true) fun s a => a.unhurried s)
      Server.init reusedFd = some s ∧ s.conns 0 = some e₀ ∧ s.conns 1 = some e₁ ∧
      s.conns 2 = some e₂ ∧ (∀ id, 3 ≤ id → s.conns id = none) ∧ e₀.Quiet ∧ e₁.Quiet ∧ e₂.Quiet ∧
      e₁.fd = 6 ∧ e₁.conn.shared.traversals = 0 ∧ e₂.fd = 5 ∧ e₂.conn.shared.traversals = 0 := by
    refine ⟨_, _, _, _, rfl, rfl, rfl, rfl, fun id hid => ?_, ⟨rfl, fun k => ?_⟩,
      ⟨rfl, fun k => ?_⟩, ⟨rfl, fun k => ?_⟩, rfl, rfl, rfl, rfl⟩
    · match id, hid with
      | id + 3, _ => rfl
    all_goals
      match k with
      | 0 | 1 | 2 => rfl
      | k + 3 => rfl
  obtain ⟨s, e₀, e₁, e₂, hs, h0, h1, h2, hnone, q0, q1, q2, f1, t1, f2, t2⟩ := hrun
  have hq : ∀ id e, s.conns id = some e → e.Quiet := by
    intro id e he
    match id with
    | 0 => cases h0.symm.trans he; exact q0
    | 1 => cases h1.symm.trans he; exact q1
    | 2 => cases h2.symm.trans he; exact q2
    | id + 3 => cases (hnone (id + 3) (by omega)).symm.trans he
  have hr := Reach.of_runs hs
  obtain ⟨hiff, -⟩ := (registry_exact (.inr rfl) hr).2 hq
  exact ⟨s, hr, hq, (hiff 5 2).mpr ⟨e₂, h2, f2, t2⟩, (hiff 6 1).mpr ⟨e₁, h1, f1, t1⟩⟩

def staleEntry : List Label := List.flatten
  [[.accept 0 5, .conn 0 (.run 1 0), .conn 0 .hup, .conn 0 (.run 0 0), .conn 0 (.run 0 0),
  .conn 0 .onhups],
   List.replicate 11 (.conn 0 (.run 2 0)),
   [.accept 1 5, .conn 1 (.run 1 0), .onAccept 1, .onAccept 1, .conn 1 (.run 1 0),
     .conn 1 (.run 1 0)],
   [.onAccept 0, .onAccept 0, .conn 0 (.run 1 0), .conn 0 (.run 1 0)]]

/-- Nothing is under way, and the registry has the closed connection, which holds its
processing lock for good, in the place of the open one. -/
theorem closed_stays_registered :
    ∃ s e₀ e₁, Reach (Server.step ⟨false, false⟩ true) (fun _ _ => True) Server.init s ∧
      (∀ id e, s.conns id = some e → e.Quiet) ∧ s.conns 0 = some e₀ ∧ s.conns 1 = some e₁ ∧
      s.connections 5 = some 0 ∧ e₀.conn.shared.closing = .poller ∧ e₀.conn.shared.traversals = 1 ∧
      e₀.conn.shared.processing = some 2 ∧ e₁.fd = 5 ∧ e₁.conn.shared.traversals = 0 := by
  have hrun : ∃ s e₀ e₁, runs (guarded (Server.step ⟨false, false⟩ true) fun _ _ => true)
      Server.init staleEntry = some s ∧ s.conns 0 = some e₀ ∧ s.conns 1 = some e₁ ∧
      (∀ id, 2 ≤ id → s.conns id = none) ∧ e₀.Quiet ∧ e₁.Quiet ∧
      s.connections 5 = some 0 ∧ e₀.conn.shared.closing = .poller ∧ e₀.conn.shared.traversals = 1 ∧
      e₀.conn.shared.processing = some 2 ∧ e₁.fd = 5 ∧ e₁.conn.shared.traversals = 0 := by
    refine ⟨_, _, _, rfl, rfl, rfl, fun id hid => ?_, ⟨rfl, fun k => ?_⟩, ⟨rfl, fun k => ?_⟩,
      rfl, rfl, rfl, rfl, rfl, rfl⟩
    · match id, hid with
      | id + 2, _ => rfl
    all_goals
      match k with
      | 0 | 1 | 2 => rfl
      | k + 3 => rfl
  obtain ⟨s, e₀, e₁, hs, h0, h1, hnone, q0, q1, hrest⟩ := hrun
  refine ⟨s, e₀, e₁, (Reach.of_runs hs).mono fun _ _ _ _ => trivial, fun id e he => ?_, h0, h1,
    hrest⟩
  match id with
  | 0 => cases h0.symm.trans he; exact q0
  | 1 => cases h1.symm.trans he; exact q1
  | id + 2 => cases (hnone (id + 2) (by omega)).symm.trans he

end Netpoll.ServerRegistry
