import Netpoll.Connection.WaitRead
import Netpoll.Connection.Buffers
import Netpoll.Connection.Disconnect

namespace Netpoll.Connection

open Netpoll.Lib.Threads Netpoll.Lib.Transition

variable {h : Handlers} {onRequest : Bool} {s s' : System} {a : Label}

/-- Handlers are installed by `init` and do not panic, and only the poller closes. -/
def Label.undisturbed (a : Label) : Bool := a.unclosed && a.installed

def Pc.requests : Pc → Bool
  | .reqLoad poll | .reqState poll | .reqLock poll => poll
  | _ => false

def Pc.hasRequest : Pc → Bool
  | .reqState _ | .reqLock _ => true
  | _ => false

structure HungUp (s : System) : Prop where
  hup : ∀ i, s.pc i = .hupClose → s.shared.hung = true
  closing : s.shared.closing ≠ .none → s.shared.hung = true
  poller : s.shared.hung = true → s.pc 0 = .done ∨ (s.pc 0).polls = false

theorem next_marks {c : Conn} {k j : Nat} {p : Pc} {m : Move Conn Pc}
    (hn : next h c k j p = some m) (hp : p.byUser = false) :
    m.shared.closing = c.closing ∨ p = .hupClose ∧ c.closing = .none := by
  cases p
  all_goals
    simp only [next] at hn
    (try split_ifs at hn) <;> cases hn
  all_goals simp_all [Pc.byUser]

theorem next_hung {c : Conn} {k j : Nat} {p : Pc} {m : Move Conn Pc}
    (hn : next h c k j p = some m) :
    (m.shared.hung = c.hung ∨ p = .appendHup) ∧ m.pc ≠ .hupClose ∧
      ∀ t, m.task = some t → t ≠ .hupClose := by
  cases p
  all_goals
    simp only [next, Pc.return] at hn
    (try split_ifs at hn) <;> cases hn
  all_goals simp

theorem next_length {c : Conn} {k j : Nat} {p : Pc} {m : Move Conn Pc}
    (hn : next h c k j p = some m) :
    m.shared.length = c.length ∨ (∃ n, p = .inputAck n ∧ m.shared.length = c.length + n) ∨
      p = .finBuffer ∧ (h.onConnect ∨ c.onRequest) ∧ m.shared.length = 0 := by
  cases p
  all_goals
    simp only [next] at hn
    (try split_ifs at hn) <;> cases hn <;> simp
  rename_i hh
  exact hh.imp_left Eq.symm

theorem Pc.not_hasRequest_of_entry {p : Pc} (hp : p.entry) : ¬ p.hasRequest := by
  cases p <;> simp_all [Pc.entry, Pc.hasRequest]

theorem next_hasRequest {c : Conn} {k j : Nat} {p : Pc} {m : Move Conn Pc}
    (hn : next h c k j p = some m) (hp : p.hasRequest → c.onRequest) :
    (m.pc.hasRequest → m.shared.onRequest) ∧
      ∀ t, m.task = some t → t.hasRequest → m.shared.onRequest := by
  cases p
  all_goals
    simp only [next, Pc.return] at hn
    (try split_ifs at hn) <;> cases hn
  all_goals refine ⟨?_, by rintro t ⟨⟩ <;> simp_all [Pc.hasRequest]⟩
  all_goals simp_all [Pc.hasRequest]

theorem next_polls {c : Conn} {k j : Nat} {p : Pc} {m : Move Conn Pc}
    (hn : next h c k j p = some m) (hm : m.pc.polls) : p.polls := by
  obtain ⟨c', q, t⟩ := m
  have hfence : FenceMove c p c' q := next_fence hn
  cases hfence with
  | keep _ _ _ _ hp => exact hp hm
  | _ => simp [Pc.polls] at hm

theorem poller_stays (hf : Fenced s) (hu : a.undisturbed) (hs : step h s a = some s')
    (ha : ∀ j, a ≠ .run 0 j) :
    s'.shared.length ≤ s.shared.length ∧ s'.shared.hung = s.shared.hung ∧
      (s'.pc 0 = s.pc 0 ∨ s.pc 0 = .idle ∧ s.shared.hung = false) := by
  have other {k : Nat} (hk : k ≠ 0) : (s.pc k).polls = false := by
    by_contra hp
    exact hk (hf.poll k (by simpa using hp)).1
  have access {k j : Nat} {m : Move Conn Pc} (hn : next h s.shared k j (s.pc k) = some m)
      (hk : k ≠ 0) : m.shared.length ≤ s.shared.length ∧ m.shared.hung = s.shared.hung := by
    constructor
    · rcases next_length hn with hl | ⟨n, hp, -⟩ | ⟨-, -, hl⟩
      · exact Nat.le_of_eq hl
      · simpa [hp, Pc.polls] using other hk
      · exact hl ▸ Nat.zero_le _
    · refine (next_hung hn).1.resolve_right fun hp => ?_
      simpa [hp, Pc.polls] using other hk
  cases a with
  | run k j =>
    have hk : k ≠ 0 := by
      rintro rfl
      exact ha j rfl
    obtain ⟨c, p, hn, rfl⟩ | ⟨c, p, t, hn, hj, -, -, rfl⟩ := State.run_cases hs
    · obtain ⟨hl, hh⟩ := access hn hk
      exact ⟨hl, hh, .inl (by simp [hk.symm])⟩
    · obtain ⟨hl, hh⟩ := access hn hk
      have hj0 : j ≠ 0 := by omega
      exact ⟨hl, hh, .inl (by simp [hk.symm, hj0.symm])⟩
  | readable | writable | hup =>
    simp only [step, poll] at hs
    split at hs <;> cases hs
    rename_i hg
    exact ⟨Nat.le_refl _, rfl, .inr ⟨hg.1, hg.2.1⟩⟩
  | consume m =>
    simp only [step] at hs
    split at hs <;> cases hs
    exact ⟨Nat.sub_le _ _, rfl, .inl rfl⟩
  | panic k => simp [Label.undisturbed, Label.unclosed] at hu
  | onhups | accept =>
    simp only [step] at hs
    split at hs <;> cases hs
    exact ⟨Nat.le_refl _, rfl, .inl (by simp)⟩
  | _ =>
    simp only [step, call] at hs
    split at hs <;> cases hs
    rename_i k hg
    have hk : 0 ≠ k := by omega
    exact ⟨Nat.le_refl _, rfl, .inl (by simp [hk])⟩

theorem length_of_unread (hs : step h s a = some s') (ha : ∀ m, a ≠ .consume m) :
    s.shared.length ≤ s'.shared.length ∨
      ∃ k, s.pc k = .finBuffer ∧ (h.onConnect ∨ s.shared.onRequest) := by
  cases a with
  | run k j =>
    obtain ⟨m, hn, hsh, -⟩ := run_pc hs
    rw [hsh]
    rcases next_length hn with hl | ⟨n, -, hl⟩ | ⟨hp, hh, -⟩
    · exact .inl (Nat.le_of_eq hl.symm)
    · exact .inl (by omega)
    · exact .inr ⟨k, hp, hh⟩
  | consume m => exact absurd rfl (ha m)
  | panic =>
    simp only [step] at hs
    split at hs <;> cases hs <;> exact .inl (Nat.le_refl _)
  | _ =>
    simp only [step, poll, call] at hs
    split at hs <;> cases hs
    exact .inl (Nat.le_refl _)

theorem Label.unclosed_of_undisturbed (hu : a.undisturbed) : a.unclosed := by
  simp_all [Label.undisturbed]

theorem Label.installed_of_undisturbed (hu : a.undisturbed) : a.installed := by
  simp_all [Label.undisturbed]

namespace HungUp

theorem step (hg : HungUp s) (hf : Fenced s) (hb : ∀ i, (s.pc i).byUser = false)
    (hu : a.undisturbed) (hs : step h s a = some s') : HungUp s' := by
  have hlater := step_later hs
  have hup : ∀ i, s'.pc i = .hupClose → s'.shared.hung = true := by
    refine facts_step (F := fun c p => p = .hupClose → c.hung = true) hs ?_ ?_ ?_ ?_ hg.hup
    · exact fun hl hp he => hl.hung (hp he)
    · exact fun k p c hb he => hb.hung.trans (hb.onhups he)
    · simp
    · intro k j m _ hn
      obtain ⟨-, h1, h2⟩ := next_hung hn
      exact ⟨fun he => absurd he h1, fun t ht he => absurd he (h2 t ht)⟩
  refine ⟨hup, fun hc => ?_, fun hh => ?_⟩
  · cases a with
    | run k j =>
      obtain ⟨m, hn, hsh, -⟩ := run_pc hs
      rcases next_marks hn (hb k) with he | ⟨hp, -⟩
      · exact hlater.hung (hg.closing (he ▸ hsh ▸ hc))
      · exact hlater.hung (hg.hup k hp)
    | _ =>
      have hun := unmoved_of_not_run hs (by simp)
      exact hun.hung.trans (hg.closing (hun.closing ▸ hc))
  · by_cases ha : ∃ j, a = .run 0 j
    · obtain ⟨j, rfl⟩ := ha
      obtain ⟨m, hn, hsh, hpc, -⟩ := run_pc hs
      rw [hpc]
      rcases (next_hung hn).1 with he | hp
      · rcases hg.poller (he ▸ hsh ▸ hh) with h0 | h0
        · simp only [h0, next, Option.some.injEq] at hn
          exact .inr (by simp [← hn, Pc.polls])
        · refine .inr ?_
          by_contra hm
          have := next_polls hn (by simpa using hm)
          simp [this] at h0
      · simp only [hp, next, Option.some.injEq] at hn
        exact .inl (by simp [← hn])
    · simp only [not_exists] at ha
      obtain ⟨-, hhung, hpc | ⟨-, hno⟩⟩ := poller_stays hf hu hs ha
      · rw [hpc]
        exact hg.poller (hhung ▸ hh)
      · simp [hhung, hno] at hh

end HungUp

structure Orderly (h : Handlers) (s : System) : Prop where
  fenced : Fenced s
  byPoller : ∀ i, (s.pc i).byUser = false
  hungUp : HungUp s
  request : ∀ i, (s.pc i).hasRequest → s.shared.onRequest
  lock : ∀ k, (s.pc k).handling → s.shared.processing = some k
  state : ∀ k, (s.pc k).handling → h.onConnect → s.shared.state ≠ .none

theorem orderly_of_reach
    (hr : Reach (step h) (fun _ a => a.undisturbed) (init onRequest) s) : Orderly h s := by
  have installed : Reach (step h) (fun _ a => a.installed) (init onRequest) s :=
    hr.mono fun _ _ _ => Label.installed_of_undisturbed
  have fenced_of {s : System}
      (hr : Reach (step h) (fun _ a => a.undisturbed) (init onRequest) s) : Fenced s :=
    hr.invariant (.init _) fun _ _ _ hf _ hs => hf.step hs
  have byPoller {s : System}
      (hr : Reach (step h) (fun _ a => a.undisturbed) (init onRequest) s) :
      ∀ i, (s.pc i).byUser = false :=
    not_byUser (hr.mono fun _ _ _ => Label.unclosed_of_undisturbed)
  refine ⟨fenced_of hr, byPoller hr, ?_, ?_, fun k hk => ?_, fun k hk hC => ?_⟩
  · induction hr with
    | refl => constructor <;> simp [init, Pc.polls]
    | tail hr hu hs ih =>
      exact (ih (hr.mono fun _ _ _ => Label.installed_of_undisturbed)).step (fenced_of hr)
        (byPoller hr) hu hs
  · refine hr.invariant (I := fun s => ∀ i, (s.pc i).hasRequest → s.shared.onRequest) ?_ ?_
    · simp [init, Pc.hasRequest]
    · intro s a s' hi hu hs
      have hreq := step_onRequest (Label.installed_of_undisturbed hu) hs
      rw [hreq]
      refine facts_step (F := fun _ p => p.hasRequest → s.shared.onRequest) hs
        (fun _ => id) ?_ ?_ ?_ hi
      · exact fun k p c hb hp => absurd hp (Pc.not_hasRequest_of_entry hb.entry)
      · simp [Pc.hasRequest]
      · intro k j m _ hn
        rw [← next_onRequest hn]
        exact next_hasRequest hn (hi k)
  · exact (locked_of_installed installed).owned k (Pc.holds_of_handling hk).1
  · have hcon := connected_of_calm hC (calm_of_installed installed)
    cases hp : s.pc k with
    | onConnect => exact hcon.begun k (by simp [hp, Pc.begun])
    | first | more => exact hcon.state (hcon.past k (by simp [hp, Pc.pastConnect, Pc.tasking]))
    | _ => simp [hp, Pc.handling] at hk

end Netpoll.Connection

namespace Netpoll.WaitRead

open Netpoll.Lib.Threads Netpoll.Lib.Transition Netpoll.Input
open Netpoll.Connection (Conn Handlers Pc Orderly)

variable {h : Handlers} {s s' : System} {a : Connection.Label}

def AckPc.tells : AckPc → Nat → Prop
  | .request l, n | .check l, n => n ≤ l
  | .trigger, _ => True
  | .idle, _ => False

theorem AckPc.tells.mono {ack : AckPc} {l n : Nat} (ht : ack.tells l) (hn : n ≤ l) :
    ack.tells n := by
  cases ack <;> simp_all [AckPc.tells] <;> omega

def Notified (h : Handlers) (c : Conn) : Prop :=
  c.onRequest = false ∨ c.processing.isSome ∧ (h.onConnect → c.state ≠ .none)

section Ack

variable {c : Conn} {ack : AckPc} {j : Nat} {p : Pc} {m : Move Conn Pc}

theorem ackNext_of_not_requests (hp : p.requests = false) (hi : ∀ n, p ≠ .inputAck n) :
    ackNext h c ack p = ack := by
  have hnone : needTrigger h c p = none := by
    unfold needTrigger
    split <;> simp_all [Pc.requests]
  unfold ackNext
  split
  · exact absurd rfl (hi _)
  · rw [hnone]
    cases ack <;> rfl

theorem ackNext_pc (hn : Connection.next h c 0 j p = some m)
    (hr : ∀ l, ack = .request l → p.requests) (hp : ack.pending = false) :
    (∀ l, ackNext h c ack p = .request l → m.pc.requests) ∧
      ((ackNext h c ack p).pending → m.pc = .done) := by
  by_cases hi : ∃ n, p = .inputAck n
  · obtain ⟨n, rfl⟩ := hi
    obtain rfl := Option.some.inj hn
    simp only [ackNext]
    split_ifs <;> simp_all [Pc.requests, AckPc.pending]
  · simp only [not_exists] at hi
    by_cases hq : p.requests
    · cases p <;> simp only [Pc.requests, Bool.false_eq_true] at hq <;> subst hq <;>
        simp only [Connection.next, Pc.return] at hn <;> split_ifs at hn <;> cases hn <;>
        cases ack <;> simp_all [ackNext, needTrigger, Pc.requests, AckPc.pending]
    · have hq : p.requests = false := by simpa using hq
      rw [ackNext_of_not_requests hq hi]
      refine ⟨fun l hl => ?_, by simp [hp]⟩
      simp [hr l hl] at hq

theorem ackNext_tells {n : Nat} (ht : ack.tells n) (hp : ack.pending = false)
    (hr : ∀ l, ack = .request l → p.requests) (hq : p.hasRequest → c.onRequest)
    (hc : Notified h c) : (ackNext h c ack p).tells n := by
  cases ack with
  | idle => exact ht.elim
  | check | trigger => simp [AckPc.pending] at hp
  | request l =>
    have hpr := hr l rfl
    have past (hh : p.hasRequest) : c.processing.isSome ∧ (h.onConnect → c.state ≠ .none) :=
      hc.resolve_left (by simp [hq hh])
    cases p <;> simp only [Pc.requests, Bool.false_eq_true] at hpr <;> subst hpr
    case reqLoad =>
      cases hreq : c.onRequest <;> simpa [ackNext, needTrigger, hreq, AckPc.tells] using ht
    case reqState =>
      have hcond : ¬ (c.state = .none ∧ h.onConnect = true) := fun hh => (past rfl).2 hh.2 hh.1
      simpa [ackNext, needTrigger, hcond] using ht
    case reqLock => simpa [ackNext, needTrigger, (past rfl).1, AckPc.tells] using ht

theorem ackNext_length (hn : Connection.next h c 0 j p = some m) :
    m.shared.length ≤ c.length ∨ (ackNext h c ack p).tells m.shared.length := by
  rcases Connection.next_length hn with hl | ⟨n, rfl, hl⟩ | ⟨-, -, hl⟩
  · exact .inl (Nat.le_of_eq hl)
  · rw [hl]
    simp only [ackNext]
    split_ifs <;> simp_all [AckPc.tells]
  · exact .inl (hl ▸ Nat.zero_le _)

end Ack

structure Woken (s : System) : Prop where
  request : ∀ l, s.ack = .request l → (s.conn.pc 0).requests
  pending : s.ack.pending → s.conn.pc 0 = .done
  hung : s.conn.shared.hung = true → s.ack = .idle
  place : ∀ p w, s.reader = some (p, w) → s.mayRead p
  heard : ∀ p w, s.reader = some (p, w) →
    Heard s.inbox w s.ack.tells (∃ k, (s.closer k).isSome)

namespace Woken

theorem ack_idle (hw : Woken s) (hr : (s.conn.pc 0).requests = false)
    (hd : s.conn.pc 0 ≠ .done) : s.ack = .idle := by
  cases ha : s.ack with
  | idle => rfl
  | request l => simp [hw.request l ha] at hr
  | check | trigger => exact absurd (hw.pending (by simp [ha, AckPc.pending])) hd

theorem notified (hw : Woken s) (ho : Orderly h s.conn) {p : Place} {w : WaitPc}
    (hr : s.reader = some (p, w)) : Notified h s.conn.shared := by
  have hp := hw.place p w hr
  cases p with
  | handler k => exact .inr ⟨by simp [ho.lock k hp], ho.state k hp⟩
  | outside => exact .inl (by simpa [System.mayRead] using hp)

theorem place_conn (hw : Woken s) (hu : a.undisturbed) (hm : s.mayStep a) {t : Connection.System}
    (hs : Connection.step h s.conn a = some t) {p : Place} {w : WaitPc}
    (hr : s.reader = some (p, w)) : System.mayRead { s with conn := t } p := by
  have hp := hw.place p w hr
  cases p with
  | handler k =>
    have hk : (s.conn.pc k).handling := hp
    have hstay := Connection.pc_stays (i := k) hs (by rintro h0; simp [h0, Pc.handling] at hk)
      (by rintro j rfl; simp [System.mayStep, System.waitsIn, hr] at hm)
      (by rintro rfl; simp [Connection.Label.undisturbed, Connection.Label.unclosed] at hu)
    exact (congrArg Pc.handling hstay).trans hk
  | outside =>
    have hreq := Connection.step_onRequest (Connection.Label.installed_of_undisturbed hu) hs
    simpa [System.mayRead, hreq] using hp

theorem closer_mono (a : Connection.Label) {k : Nat} (hk : (s.closer k).isSome) :
    (s.closerAfter a k).isSome := by
  unfold System.closerAfter
  split
  · split
    · rename_i i _ hc
      rcases eq_or_ne k i with rfl | hki
      · simpa using hc.2
      · simpa [hki] using hk
    · exact hk
  · exact hk

theorem closer_new {t : Connection.System} (ho : Orderly h s.conn)
    (hs : Connection.step h s.conn a = some t) (hc : t.shared.closing ≠ .none) :
    s.conn.shared.closing ≠ .none ∨ ∃ k, (s.closerAfter a k).isSome := by
  cases a with
  | run k j =>
    obtain ⟨m, hn, hsh, -⟩ := Connection.run_pc hs
    rcases Connection.next_marks hn (ho.byPoller k) with he | ⟨hp, hnone⟩
    · exact .inl (he ▸ hsh ▸ hc)
    · exact .inr ⟨k, by simp [System.closerAfter, hp, hnone, closeErr]⟩
  | _ =>
    have hun := Connection.unmoved_of_not_run hs (by simp)
    exact .inl (hun.closing ▸ hc)

theorem conn (hw : Woken s) (ho : Orderly h s.conn) (hu : a.undisturbed) (hm : s.mayStep a)
    {t : Connection.System} (hs : Connection.step h s.conn a = some t) :
    Woken { s with conn := t, ack := s.ackAfter h a, closer := s.closerAfter a } := by
  by_cases ha : ∃ j, a = .run 0 j
  · obtain ⟨j, rfl⟩ := ha
    obtain ⟨m, hn, hsh, hpc, -⟩ := Connection.run_pc hs
    have hp : s.ack.pending = false := by
      by_contra hp
      simp [System.mayStep, show s.ack.pending = true by simpa using hp] at hm
    obtain ⟨hreq, hpend⟩ := ackNext_pc hn hw.request hp
    refine ⟨fun l hl => hpc ▸ hreq l hl, fun hl => hpc ▸ hpend hl, fun hh => ?_,
      fun p w hr => hw.place_conn hu hm hs hr, fun p w hr => ?_⟩
    · have hack : ackNext h s.conn.shared s.ack (s.conn.pc 0) = s.ack ∧ s.ack = .idle := by
        rcases (Connection.next_hung hn).1 with he | hp0
        · refine ⟨?_, hw.hung (he ▸ hsh ▸ hh)⟩
          rcases ho.hungUp.poller (he ▸ hsh ▸ hh) with h0 | h0
          · exact ackNext_of_not_requests (by simp [h0, Pc.requests]) (by simp [h0])
          · refine ackNext_of_not_requests ?_ ?_
            · cases hq : s.conn.pc 0 <;> simp_all [Pc.requests, Pc.polls]
            · rintro n hq
              simp [hq, Pc.polls] at h0
        · exact ⟨ackNext_of_not_requests (by simp [hp0, Pc.requests]) (by simp [hp0]),
            hw.ack_idle (by simp [hp0, Pc.requests]) (by simp [hp0])⟩
      exact hack.1.trans hack.2
    · refine (hw.heard p w hr).other rfl id (fun _ hle => ?_) (fun _ hD => .inr ?_)
        (closer_new ho hs) fun hk => .inr (hk.imp fun _ => closer_mono (.run 0 j))
      · have hle : w.size ≤ m.shared.length := hsh ▸ hle
        have hl : _ ∨ (ackNext h _ s.ack _).tells m.shared.length := ackNext_length hn
        rcases hl with hl | ht
        · exact .inl (Nat.le_trans hle hl)
        · exact .inr (ht.mono hle)
      · exact ackNext_tells hD hp hw.request (ho.request 0) (hw.notified ho hr)
  · simp only [not_exists] at ha
    obtain ⟨hlen, hhung, hpc⟩ := Connection.poller_stays ho.fenced hu hs ha
    have hack : s.ackAfter h a = s.ack := by
      unfold System.ackAfter
      split
      · exact absurd rfl (ha _)
      · rfl
    rw [hack]
    have hpc' : s.ack ≠ .idle → t.pc 0 = s.conn.pc 0 := by
      intro hne
      refine hpc.resolve_right fun h0 => hne (hw.ack_idle ?_ ?_) <;> simp [h0.1, Pc.requests]
    refine ⟨fun l hl => ?_, fun hl => ?_, fun hh => hw.hung (hhung ▸ hh),
      fun p w hr => hw.place_conn hu hm hs hr, fun p w hr => ?_⟩
    · rw [hpc' (by rw [show s.ack = .request l from hl]; simp)]
      exact hw.request l hl
    · rw [hpc' (by rintro h0; simp [h0, AckPc.pending] at hl)]
      exact hw.pending hl
    · exact (hw.heard p w hr).other rfl id (fun _ hle => .inl (Nat.le_trans hle hlen))
        (fun _ => .inr) (closer_new ho hs) fun hk => .inr (hk.imp fun _ => closer_mono a)

theorem ack (hw : Woken s) (hs : step h s .ack = some s') : Woken s' := by
  simp only [step] at hs
  split at hs <;> cases hs
  · rename_i l hl
    refine ⟨fun l h0 => ?_, fun h0 => hw.pending (by simp [hl, AckPc.pending]), fun h0 => ?_,
      hw.place, fun p w hr => ?_⟩
    · dsimp only at h0
      split at h0 <;> cases h0
    · simp [hw.hung h0] at hl
    · have hh := hw.heard p w hr
      refine hh.other rfl id (fun _ => .inl) (fun hwaits hD => .inr ?_) .inl .inr
      have hsize : s.waitReadSize = w.size := hh.armed (WaitPc.armed_of_waits hwaits)
      have hle : w.size ≤ l := by simpa [hl, AckPc.tells] using hD
      simp [hsize, hle, AckPc.tells]
  · rename_i hl
    refine ⟨by simp, by simp [AckPc.pending], fun _ => rfl, hw.place, fun p w hr => ?_⟩
    exact (hw.heard p w hr).of_slot (triggerRead_isSome _ _)

theorem send (hw : Woken s) {k : Nat} (hs : step h s (.send k) = some s') : Woken s' := by
  obtain ⟨e, -, rfl⟩ := Option.map_eq_some_iff.mp hs
  exact ⟨hw.request, hw.pending, hw.hung, hw.place,
    fun p w hr => (hw.heard p w hr).of_slot (triggerRead_isSome _ _)⟩

theorem waitRead (hw : Woken s) {p : Place} {n : Nat} (hs : step h s (.waitRead p n) = some s') :
    Woken s' := by
  simp only [step] at hs
  split at hs <;> cases hs
  rename_i hp
  refine ⟨hw.request, hw.pending, hw.hung, fun q w hr => ?_, fun q w hr => ?_⟩
  · obtain ⟨rfl, rfl⟩ : p = q ∧ WaitPc.entry n = w := by simpa using hr
    exact hp.2
  · obtain ⟨rfl, rfl⟩ : p = q ∧ WaitPc.entry n = w := by simpa using hr
    constructor <;> simp [WaitPc.armed, WaitPc.waits, WaitPc.blocked]

theorem read (hw : Woken s) (hs : step h s .read = some s') : Woken s' := by
  simp only [step] at hs
  split at hs
  · cases hs
  rename_i p w hr
  obtain ⟨⟨b, o⟩, hb, rfl⟩ := Option.map_eq_some_iff.mp hs
  refine ⟨hw.request, hw.pending, hw.hung, fun q v hv => ?_, fun q v hv => ?_⟩
  all_goals obtain ⟨v', rfl, hv⟩ := Option.map_eq_some_iff.mp hv
  all_goals obtain ⟨rfl, rfl⟩ : p = q ∧ v' = v := by simpa using hv
  · exact hw.place p w hr
  · have hstep := (hw.heard p w hr).step hb
    have hbox : b = ⟨s.conn.shared.length, b.waitReadSize, b.readTrigger,
      s.conn.shared.closing⟩ := by
      rw [Inbox.mk.injEq]
      exact ⟨waitRead_length hb, rfl, rfl, waitRead_closing hb⟩
    rw [hbox] at hstep
    exact hstep

end Woken

def Label.calm : Label → Bool
  | .conn a => a.undisturbed
  | _ => true

theorem step_conn {b : Label} (hs : step h s b = some s') :
    s'.conn = s.conn ∨ ∃ a, b = .conn a ∧ Connection.step h s.conn a = some s'.conn := by
  cases b with
  | conn a =>
    simp only [step] at hs
    split at hs
    · obtain ⟨t, ht, rfl⟩ := Option.map_eq_some_iff.mp hs
      exact .inr ⟨a, rfl, ht⟩
    · cases hs
  | send k =>
    obtain ⟨e, -, rfl⟩ := Option.map_eq_some_iff.mp hs
    exact .inl rfl
  | read =>
    simp only [step] at hs
    split at hs
    · cases hs
    · obtain ⟨r, -, rfl⟩ := Option.map_eq_some_iff.mp hs
      exact .inl rfl
  | _ =>
    simp only [step] at hs
    split at hs <;> cases hs <;> exact .inl rfl

theorem conn_reach {onRequest : Bool} {P : System → Label → Prop} (hP : ∀ s a, P s a → a.calm)
    (hr : Reach (step h) P (init onRequest) s) :
    Reach (Connection.step h) (fun _ a => a.undisturbed) (Connection.init onRequest) s.conn := by
  refine hr.simulates System.conn ?_
  intro s b s' hg hs
  rcases step_conn hs with he | ⟨a, rfl, ha⟩
  · exact .inl he
  · exact .inr ⟨a, hP s _ hg, ha⟩

theorem conn_of_reach {onRequest : Bool} {P : System → Label → Prop}
    (hP : ∀ s a, P s a → a.calm) (hr : Reach (step h) P (init onRequest) s) : Orderly h s.conn :=
  Connection.orderly_of_reach (conn_reach hP hr)

theorem installed_reach {onRequest : Bool} {P : System → Label → Prop} (hP : ∀ s a, P s a → a.calm)
    (hr : Reach (step h) P (init onRequest) s) :
    Reach (Connection.step h) (fun _ a => a.installed) (Connection.init onRequest) s.conn :=
  (conn_reach hP hr).mono fun _ _ _ => Connection.Label.installed_of_undisturbed

theorem woken_of_reach {onRequest : Bool} {P : System → Label → Prop}
    (hP : ∀ s a, P s a → a.calm) (hr : Reach (step h) P (init onRequest) s) : Woken s := by
  induction hr with
  | refl => constructor <;> simp [init, AckPc.pending]
  | @tail s a s' hr hg hs ih =>
    cases a with
    | conn a =>
      simp only [step] at hs
      split at hs
      · obtain ⟨t, ht, rfl⟩ := Option.map_eq_some_iff.mp hs
        exact ih.conn (conn_of_reach hP hr) (hP _ _ hg) ‹_› ht
      · cases hs
    | ack => exact ih.ack hs
    | send k => exact ih.send hs
    | waitRead p n => exact ih.waitRead hs
    | read => exact ih.read hs

def System.overtaken (s : System) : Bool :=
  match s.reader with
  | some (_, .status n) => n ≤ s.conn.shared.length
  | _ => false

/-- The poller does not mark the connection closing while the reader is overtaken. -/
def Label.fair (s : System) : Label → Bool
  | .conn (.run k _) => s.conn.pc k != .hupClose || !s.overtaken
  | _ => true

structure Kept (s : System) : Prop where
  slot : ∀ e, s.readTrigger = some (some e) → s.conn.shared.closing ≠ .none
  closer : ∀ k, (s.closer k).isSome → s.conn.shared.closing ≠ .none
  status : ∀ p n, s.reader = some (p, .status n) → s.conn.shared.closing ≠ .none →
    s.conn.shared.length < n
  recv : ∀ p n e, s.reader = some (p, .recv n) → s.readTrigger = some (some e) →
    s.conn.shared.length < n
  clear : ∀ p n e, s.reader = some (p, .clear n (some e)) →
    s.conn.shared.closing ≠ .none ∧ s.conn.shared.length < n

theorem length_of_closing (ho : Orderly h s.conn) (hu : a.undisturbed) {t : Connection.System}
    (hs : Connection.step h s.conn a = some t) (hc : s.conn.shared.closing ≠ .none) :
    t.shared.length ≤ s.conn.shared.length := by
  by_cases ha : ∃ j, a = .run 0 j
  · obtain ⟨j, rfl⟩ := ha
    obtain ⟨m, hn, hsh, -⟩ := Connection.run_pc hs
    rw [hsh]
    rcases Connection.next_length hn with hl | ⟨n, hp, -⟩ | ⟨-, -, hl⟩
    · exact Nat.le_of_eq hl
    · rcases ho.hungUp.poller (ho.hungUp.closing hc) with h0 | h0 <;>
        simp [hp, Pc.polls] at h0
    · exact hl ▸ Nat.zero_le _
  · simp only [not_exists] at ha
    exact (Connection.poller_stays ho.fenced hu hs ha).1

theorem triggerRead_err {slot : Option (Option ReadErr)} {err : Option ReadErr} {e : ReadErr}
    (he : triggerRead slot err = some (some e)) :
    slot = some (some e) ∨ slot = none ∧ err = some e := by
  unfold triggerRead at he
  split at he
  · exact .inl he
  · exact .inr (by simp_all)

structure Marked (s : System) : Prop where
  slot : ∀ e, s.readTrigger = some (some e) → s.conn.shared.closing ≠ .none
  closer : ∀ k, (s.closer k).isSome → s.conn.shared.closing ≠ .none

namespace Marked

theorem closer_closing {k : Nat} {t : Connection.System} (hk : Marked s)
    (hs : Connection.step h s.conn a = some t) (hc : (s.closerAfter a k).isSome) :
    t.shared.closing ≠ .none := by
  have hlater := (Connection.step_later hs).closing
  unfold System.closerAfter at hc
  split at hc
  · split at hc
    · rename_i i j hmark
      obtain ⟨m, hn, hsh, -⟩ := Connection.run_pc hs
      rw [hsh]
      obtain ⟨hnone, herr⟩ := hmark
      cases hp : s.conn.pc i <;> simp only [hp, closeErr, Option.isSome_none, Bool.false_eq_true]
        at herr
      all_goals
        simp only [hp, Connection.next, hnone, if_true, Option.some.injEq] at hn
        simp [← hn]
    · exact hlater (hk.closer k hc)
  · exact hlater (hk.closer k hc)

theorem step {b : Label} (hk : Marked s) (hs : step h s b = some s') : Marked s' := by
  cases b with
  | conn a =>
    simp only [WaitRead.step] at hs
    split at hs
    · obtain ⟨t, ht, rfl⟩ := Option.map_eq_some_iff.mp hs
      exact ⟨fun e he => (Connection.step_later ht).closing (hk.slot e he),
        fun k => hk.closer_closing ht⟩
    · cases hs
  | ack =>
    simp only [WaitRead.step] at hs
    split at hs <;> cases hs
    · exact ⟨hk.slot, hk.closer⟩
    · exact ⟨fun e he => hk.slot e ((triggerRead_err he).resolve_right (by simp)), hk.closer⟩
  | send k =>
    obtain ⟨e', he', rfl⟩ := Option.map_eq_some_iff.mp hs
    have hc : s.conn.shared.closing ≠ .none := hk.closer k (by simp [he'])
    exact ⟨fun _ _ => hc, fun _ _ => hc⟩
  | waitRead p n =>
    simp only [WaitRead.step] at hs
    split at hs <;> cases hs
    exact ⟨hk.slot, hk.closer⟩
  | read =>
    simp only [WaitRead.step] at hs
    split at hs
    · cases hs
    obtain ⟨⟨b, o⟩, hb, rfl⟩ := Option.map_eq_some_iff.mp hs
    refine ⟨fun e he => hk.slot e ?_, hk.closer⟩
    rcases waitRead_slot hb with h0 | h0
    · exact h0.symm.trans he
    · exact absurd (h0.symm.trans he) nofun

end Marked

namespace Kept

theorem marked (hk : Kept s) : Marked s := ⟨hk.slot, hk.closer⟩

theorem conn (hk : Kept s) (ho : Orderly h s.conn) (hu : a.undisturbed)
    (hf : Label.fair s (.conn a)) {t : Connection.System}
    (hs : Connection.step h s.conn a = some t) :
    Kept { s with conn := t, ack := s.ackAfter h a, closer := s.closerAfter a } := by
  have hlater := (Connection.step_later hs).closing
  have hlen := length_of_closing ho hu hs
  refine ⟨fun e he => hlater (hk.slot e he), fun k => hk.marked.closer_closing hs,
    fun p n hr hc => ?_, fun p n e hr he => ?_, fun p n e hr => ?_⟩
  · by_cases hold : s.conn.shared.closing = .none
    · cases a with
      | run k j =>
        obtain ⟨m, hn, hsh, -⟩ := Connection.run_pc hs
        rcases Connection.next_marks hn (ho.byPoller k) with he | ⟨hp, -⟩
        · exact absurd (he.trans hold) (hsh ▸ hc)
        · have hlt : s.conn.shared.length < n := by
            simpa [Label.fair, hp, System.overtaken, show s.reader = _ from hr] using hf
          have hl : m.shared.length = s.conn.shared.length :=
            (Connection.next_length hn).resolve_right (by simp [hp])
          dsimp only
          rw [hsh, hl]
          exact hlt
      | _ =>
        have hun := Connection.unmoved_of_not_run hs (by simp)
        exact absurd (hun.closing.trans hold) hc
    · exact Nat.lt_of_le_of_lt (hlen hold) (hk.status p n hr hold)
  · exact Nat.lt_of_le_of_lt (hlen (hk.slot e he)) (hk.recv p n e hr he)
  · obtain ⟨hc, hlt⟩ := hk.clear p n e hr
    exact ⟨hlater hc, Nat.lt_of_le_of_lt (hlen hc) hlt⟩

theorem ack (hk : Kept s) (hs : step h s .ack = some s') : Kept s' := by
  simp only [step] at hs
  split at hs <;> cases hs
  · exact ⟨hk.slot, hk.closer, hk.status, hk.recv, hk.clear⟩
  · have herr {e : ReadErr} (he : triggerRead s.readTrigger none = some (some e)) :
        s.readTrigger = some (some e) :=
      (triggerRead_err he).resolve_right (by simp)
    exact ⟨fun e he => hk.slot e (herr he), hk.closer, hk.status,
      fun p n e hr he => hk.recv p n e hr (herr he), hk.clear⟩

theorem send (hk : Kept s) (hw : Woken s) (ho : Orderly h s.conn) {k : Nat}
    (hs : step h s (.send k) = some s') : Kept s' := by
  obtain ⟨e', he', rfl⟩ := Option.map_eq_some_iff.mp hs
  have hc : s.conn.shared.closing ≠ .none := hk.closer k (by simp [he'])
  refine ⟨fun _ _ => hc, fun _ _ => hc, hk.status, fun p n e hr he => ?_, hk.clear⟩
  rcases triggerRead_err he with hslot | ⟨hslot, -⟩
  · exact hk.recv p n e hr hslot
  · by_contra hle
    rcases (hw.heard p _ hr).data rfl (Nat.le_of_not_lt hle) with ht | ht
    · simp [System.inbox, hslot] at ht
    · rw [hw.hung (ho.hungUp.closing hc)] at ht
      exact ht

theorem waitRead (hk : Kept s) {p : Place} {n : Nat} (hs : step h s (.waitRead p n) = some s') :
    Kept s' := by
  simp only [step] at hs
  split at hs <;> cases hs
  exact ⟨hk.slot, hk.closer, by simp, by simp, by simp⟩

theorem read (hk : Kept s) (hs : step h s .read = some s') : Kept s' := by
  simp only [step] at hs
  split at hs
  · cases hs
  rename_i p w hr
  obtain ⟨⟨b, o⟩, hb, rfl⟩ := Option.map_eq_some_iff.mp hs
  have hslot {e : ReadErr} (he : b.readTrigger = some (some e)) :
      s.readTrigger = some (some e) := by
    rcases waitRead_slot hb with h0 | h0
    · exact h0.symm.trans he
    · simp [h0] at he
  refine ⟨fun e he => hk.slot e (hslot he), hk.closer, fun q n hv _ => ?_, fun q n e hv he => ?_,
    fun q n e hv => ?_⟩
  all_goals
    obtain ⟨v, rfl, hpair⟩ := Option.map_eq_some_iff.mp hv
    obtain ⟨rfl, rfl⟩ := Prod.mk.inj hpair
  · cases waitRead_cases hb with
    | short hlt => exact hlt
  · cases waitRead_cases hb with
    | wait hc => exact absurd hc (hk.slot e (hslot he))
  · cases waitRead_cases hb with
    | closed hc => exact ⟨hc, hk.status p n hr hc⟩
    | failed hs => exact ⟨hk.slot e hs, hk.recv p n e hr hs⟩

theorem step {b : Label} (hk : Kept s) (hw : Woken s) (ho : Orderly h s.conn) (hc : b.calm)
    (hf : b.fair s) (hs : step h s b = some s') : Kept s' := by
  cases b with
  | conn a =>
    simp only [WaitRead.step] at hs
    split at hs
    · obtain ⟨t, ht, rfl⟩ := Option.map_eq_some_iff.mp hs
      exact hk.conn ho hc hf ht
    · cases hs
  | ack => exact hk.ack hs
  | send k => exact hk.send hw ho hs
  | waitRead p n => exact hk.waitRead hs
  | read => exact hk.read hs

end Kept

theorem kept_of_reach {onRequest : Bool}
    (hr : Reach (step h) (fun s a => a.calm ∧ a.fair s) (init onRequest) s) : Kept s := by
  induction hr with
  | refl => constructor <;> simp [init]
  | @tail s a s' hr hg hs ih =>
    have hcalm : ∀ s (a : Label), (a.calm : Prop) ∧ (a.fair s : Prop) → a.calm := fun _ _ h => h.1
    exact ih.step (woken_of_reach hcalm hr) (conn_of_reach hcalm hr) hg.1 hg.2 hs

/-- Nothing of the poller is left to do: no event, no end of `inputAck`, no
`onHup`. -/
def System.pollerIdle (s : System) : Prop :=
  s.conn.pc 0 = .idle ∧ s.ack = .idle ∧ s.conn.pc 2 = .idle ∧ ∀ k, s.closer k = none

def Label.unread : Label → Bool
  | .conn (.consume _) => false
  | _ => true

theorem length_mono {b : Label} (hu : b.unread) (hs : step h s b = some s') :
    s.conn.shared.length ≤ s'.conn.shared.length ∨
      ∃ k, s.conn.pc k = .finBuffer ∧ (h.onConnect ∨ s.conn.shared.onRequest) := by
  rcases step_conn hs with he | ⟨a, rfl, ha⟩
  · exact .inl (Nat.le_of_eq (congrArg (·.shared.length) he.symm))
  refine Connection.length_of_unread ha ?_
  rintro m rfl
  cases hu

theorem traversals_mono {b : Label} (hs : step h s b = some s') :
    s.conn.shared.traversals ≤ s'.conn.shared.traversals := by
  rcases step_conn hs with he | ⟨a, -, ha⟩
  · exact Nat.le_of_eq (congrArg (·.shared.traversals) he.symm)
  · exact (Connection.step_later ha).traversals

theorem unread_or_traversed {onRequest : Bool} {n : Nat} {P Q : System → Label → Prop}
    (hP : ∀ s a, P s a → a.calm) (hQ : ∀ s a, Q s a → P s a ∧ a.unread)
    (hr : Reach (step h) P (init onRequest) s) (hn : n ≤ s.conn.shared.length)
    (hr' : Reach (step h) Q s s') :
    n ≤ s'.conn.shared.length ∨
      (h.onConnect ∨ onRequest) ∧ 0 < s'.conn.shared.traversals := by
  induction hr' with
  | refl => exact .inl hn
  | @tail t b t' hrt hq hs ih =>
    have hreach := hr.trans (hrt.mono fun _ _ _ hq => (hQ _ _ hq).1)
    rcases ih with hle | ⟨hh, ht⟩
    · rcases length_mono (hQ _ _ hq).2 hs with hlen | ⟨k, hk, hh⟩
      · exact .inl (Nat.le_trans hle hlen)
      · have hi := installed_reach hP hreach
        have h1 := (Connection.locked_of_installed hi).during k (by simp [hk, Pc.traversing])
        rw [(Connection.dueMet_of_installed hi).2] at hh
        exact .inr ⟨hh, Nat.lt_of_lt_of_le (by omega) (traversals_mono hs)⟩
    · exact .inr ⟨hh, Nat.lt_of_lt_of_le ht (traversals_mono hs)⟩

/-- No wake-up is lost; and when the close does not overtake the reader, `n` unread bytes that were
acknowledged before it are what `waitRead(n)` finds, in a handler or on a connection without any. -/
theorem waitRead_prefers_data (h : Handlers) (onRequest : Bool) {s : System}
    (hr : Reach (step h) (fun _ a => a.calm) (init onRequest) s) :
    (∀ p n, s.reader = some (p, .recv n) → s.readTrigger = none → s.pollerIdle →
      s.conn.shared.length < n ∧ s.conn.shared.closing = .none) ∧
      ∀ s₁ s₂ j p n err, (p = .outside → h.onConnect = false) →
        Reach (step h) (fun s a => a.calm ∧ a.fair s) (init onRequest) s →
        s.conn.pc 2 = .hupClose → s.conn.shared.closing = .none → n ≤ s.conn.shared.length →
        Label.fair s (.conn (.run 2 j)) → step h s (.conn (.run 2 j)) = some s₁ →
        Reach (step h) (fun s a => (a.calm ∧ a.fair s) ∧ a.unread) s₁ s₂ →
        s₂.reader = some (p, .clear n err) → err = none := by
  refine ⟨fun p n hread hslot hidle => ?_,
    fun s₁ s₂ j p n err hout hfair hp _ hn hf hmark hr₂ hres => ?_⟩
  · obtain ⟨-, hack, -, hcl⟩ := hidle
    refine ((woken_of_reach (fun _ _ => id) hr).heard p _ hread).nothing_due rfl hslot ?_ ?_
    · simp [hack, AckPc.tells]
    · simp [hcl]
  · have hcalm : ∀ s (a : Label), (a.calm : Prop) ∧ (a.fair s : Prop) → a.calm := fun _ _ h => h.1
    have h₁ : Reach (step h) (fun s a => a.calm ∧ a.fair s) (init onRequest) s₁ :=
      .tail hfair ⟨rfl, hf⟩ hmark
    have h₂ := h₁.trans (hr₂.mono fun _ _ _ hg => hg.1)
    have hall : Reach (step h) (fun s a => (a.calm ∧ a.fair s) ∧ a.unread) s s₂ :=
      (Reach.tail .refl ⟨⟨rfl, hf⟩, rfl⟩ hmark).trans hr₂
    have hi := installed_reach hcalm h₂
    have hlen : n ≤ s₂.conn.shared.length := by
      refine (unread_or_traversed hcalm (fun _ _ h => h) hfair hn hall).resolve_right ?_
      rintro ⟨hh, ht⟩
      -- a handler keeps the finalizer out, and without one the data stays
      have hmay := (woken_of_reach hcalm h₂).place p _ hres
      cases p with
      | handler k =>
        obtain ⟨h1, h2⟩ := Connection.Pc.holds_of_handling hmay
        have := (Connection.locked_of_installed hi).before k h1 h2
        omega
      | outside =>
        have hreq : s₂.conn.shared.onRequest = false := by simpa [System.mayRead] using hmay
        rw [(Connection.dueMet_of_installed hi).2] at hreq
        simp [hout rfl, hreq] at hh
    cases err with
    | none => rfl
    | some e => exact absurd ((kept_of_reach h₂).clear p n e hres).2 (Nat.not_lt.mpr hlen)

theorem waitRead_prefers_data_one :
    ∃ s s₁ s₂, Reach (step ⟨false, false⟩) (fun _ a => a.calm) (init false) s ∧
      s.conn.pc 2 = .hupClose ∧ step ⟨false, false⟩ s (.conn (.run 2 0)) = some s₁ ∧
      Reach (step ⟨false, false⟩) (fun s a => (a.calm ∧ a.fair s) ∧ a.unread) s₁ s₂ ∧
      ∃ err, s₂.reader = some (.outside, .clear 1 err) ∧ err = none := by
  have hrun : ∃ s, runs (guarded (step ⟨false, false⟩) fun s a => a.calm && a.fair s) (init false)
      (List.flatten [[.waitRead .outside 1], List.replicate 4 .read, [.conn (.readable 1)],
        List.replicate 3 (.conn (.run 0 0)), [.ack, .ack, .conn (.run 0 0), .conn .hup],
        List.replicate 2 (.conn (.run 0 0)), [.conn .onhups]]) = some s ∧
      s.conn.pc 2 = .hupClose ∧ s.conn.shared.closing = .none ∧ 1 ≤ s.conn.shared.length ∧
      Label.fair s (.conn (.run 2 0)) ∧ ∃ s₁, step ⟨false, false⟩ s (.conn (.run 2 0)) = some s₁ ∧
      ∃ s₂, runs (guarded (step ⟨false, false⟩) fun s a => (a.calm && a.fair s) && a.unread) s₁
        (List.replicate 2 .read) = some s₂ ∧ ∃ err, s₂.reader = some (.outside, .clear 1 err) :=
    ⟨_, rfl, rfl, rfl, Nat.le_refl 1, rfl, _, rfl, _, rfl, _, rfl⟩
  obtain ⟨s, hs, hpc, hc, hl, hf, s₁, h₁, s₂, h₂, err, herr⟩ := hrun
  have hr : Reach (step ⟨false, false⟩) (fun s a => a.calm ∧ a.fair s) (init false) s :=
    (Reach.of_runs hs).mono fun _ _ _ => by simp
  have hr₂ : Reach (step ⟨false, false⟩) (fun s a => (a.calm ∧ a.fair s) ∧ a.unread) s₁ s₂ :=
    (Reach.of_runs h₂).mono fun _ _ _ => by simp
  have hr' := hr.mono fun _ _ _ hg => hg.1
  exact ⟨s, s₁, s₂, hr', hpc, h₁, hr₂, err, herr,
    (waitRead_prefers_data _ _ hr').2 s₁ s₂ 0 .outside 1 err (fun _ => rfl) hr hpc hc hl hf h₁ hr₂
    herr⟩

/-- The reader has found no byte; then one byte is acknowledged and the connection
is marked closing, and the reader returns the error. -/
theorem waitRead_prefers_eof :
    ∃ s s₁ s₂, Reach (step ⟨false, false⟩) (fun _ a => a.calm) (init false) s ∧
      s.conn.pc 2 = .hupClose ∧ s.conn.shared.closing = .none ∧ s.conn.shared.length = 1 ∧
      step ⟨false, false⟩ s (.conn (.run 2 0)) = some s₁ ∧
      Reach (step ⟨false, false⟩) (fun _ a => a.calm ∧ a.unread) s₁ s₂ ∧
      s₂.reader = some (.outside, .clear 1 (some (.eof "wait read"))) := by
  have hrun : ∃ s, runs (guarded (step ⟨false, false⟩) fun _ a => a.calm) (init false)
      (List.flatten [[.waitRead .outside 1], List.replicate 3 .read, [.conn (.readable 1)],
        List.replicate 3 (.conn (.run 0 0)), [.ack, .ack, .conn (.run 0 0), .conn .hup],
        List.replicate 2 (.conn (.run 0 0)), [.conn .onhups]]) = some s ∧
      s.conn.pc 2 = .hupClose ∧ s.conn.shared.closing = .none ∧ s.conn.shared.length = 1 ∧
      ∃ s₁, step ⟨false, false⟩ s (.conn (.run 2 0)) = some s₁ ∧
      ∃ s₂, runs (guarded (step ⟨false, false⟩) fun _ a => a.calm && a.unread) s₁ [.read] =
      some s₂ ∧
        s₂.reader = some (.outside, .clear 1 (some (.eof "wait read"))) :=
    ⟨_, rfl, rfl, rfl, rfl, _, rfl, _, rfl, rfl⟩
  obtain ⟨s, hs, hpc, hc, hl, s₁, h₁, s₂, h₂, herr⟩ := hrun
  exact ⟨s, s₁, s₂, Reach.of_runs hs, hpc, hc, hl, h₁,
    (Reach.of_runs h₂).mono fun _ _ _ => by simp, herr⟩

end Netpoll.WaitRead
