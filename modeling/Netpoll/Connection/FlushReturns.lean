import Mathlib.Algebra.Ring.Nat
import Netpoll.Connection.Flush
import Netpoll.Fifo.Writable

namespace Netpoll.Flush

open Netpoll.Lib.Transition
open Netpoll.Poll.Handler (SysRes iovecs maxInt32)
open Netpoll.WriteFifo (barriercap getBytes sum_iovecs_pos sum_getBytes_pos)

variable {β : Type*} {s s' : System β} {r : SysRes}

def Label.untimed : Label β → Bool
  | .timeout => false
  | _ => true

/-- The writer, the poller and the closer go on; the kernel takes at least one byte of what the
poller offers. -/
def Label.forward (s : System β) : Label β → Bool
  | .writer _ | .event | .closeTrigger => true
  | .poller r =>
    match s.poller, r with
    | .send _, .ok n => 0 < n
    | .send _, .fail _ => false
    | _, _ => true
  | _ => false

theorem Conn.offered_ne_nil {c : Conn β} (hc : c.bytes ≠ []) : c.offered ≠ [] := by
  have hlen : 0 < c.bytes.length := List.length_pos_iff.mpr hc
  have hsum : (c.nodes.map List.length).sum = c.bytes.length := by
    rw [Conn.bytes, List.length_flatten]
  have hpos : 0 < (iovecs 0 (getBytes barriercap (c.nodes.map List.length))).sum :=
    sum_iovecs_pos (by decide) (sum_getBytes_pos (by decide) (hsum ▸ hlen))
  rw [Conn.offered, Ne, List.take_eq_nil_iff]
  exact fun h => h.elim (fun h => hpos.ne' h) hc

structure Patient (s : System β) : Prop where
  exact : Exact s
  untimed : s.writer ≠ .timedOut ∧ s.writer ≠ .expired
  apart : s.conn.active = true → s.writer ≠ .waitFlush →
    s.poller = .idle ∧ s.conn.writable = false ∧ s.conn.writeTrigger = none
  token : s.conn.writeTrigger = some none → s.poller = .idle
  sends : ∀ vs, s.poller = .send vs → vs ≠ []
  wakes : s.writer = .waitFlush → s.conn.writable = true ∨ s.poller = .trigger ∨
    s.conn.writeTrigger ≠ none
  closed : s.conn.active = false → s.writer.busy = true ∨ s.writer = .waitFlush →
    s.closer = true ∨ s.conn.writeTrigger ≠ none

namespace Patient

theorem init : Patient (init : System β) := by
  refine ⟨.init, ?_, ?_, ?_, ?_, ?_, ?_⟩ <;> simp [Flush.init]

theorem busy (hs : Patient s) (hb : s.writer.busy = true) {w : WriterPc β} {c : Conn β}
    (hx : Exact { s with conn := c, writer := w })
    (hc : c.active = s.conn.active ∧ c.writable = s.conn.writable ∧
      c.writeTrigger = s.conn.writeTrigger) (hw : w ≠ .waitFlush ∧ w ≠ .timedOut ∧ w ≠ .expired) :
    Patient { s with conn := c, writer := w } where
  exact := hx
  untimed := hw.2
  apart ha hn := by
    have hn : s.writer ≠ .waitFlush := fun he => by simp [he, WriterPc.busy] at hb
    have := hs.apart (hc.1 ▸ ha) hn
    exact ⟨this.1, hc.2.1.trans this.2.1, hc.2.2.trans this.2.2⟩
  token ht := hs.token (hc.2.2 ▸ ht)
  sends := hs.sends
  wakes hn := absurd hn hw.1
  closed ha hn := by
    have := hs.closed (hc.1 ▸ ha) (.inl hb)
    exact this.imp_right fun ht => (hc.2.2.symm ▸ ht)

theorem writer (hs : Patient s) (h : writerStep s r = some s') : Patient s' := by
  have hx := hs.exact.writer h
  obtain ⟨c, w, p, cl⟩ := s
  cases w with
  | idle => cases h
  | flush =>
    cases h
    exact hs.busy rfl hx ⟨rfl, rfl, rfl⟩ (by dsimp only; split <;> simp)
  | send vs =>
    cases r with
    | ok n =>
      cases h
      exact hs.busy rfl hx ⟨rfl, rfl, rfl⟩ (by simp)
    | fail e =>
      cases e <;> cases h <;> exact hs.busy rfl hx ⟨rfl, rfl, rfl⟩ (by simp)
  | skip n =>
    simp only [writerStep] at h
    split at h
    · cases h
      exact hs.busy rfl hx ⟨rfl, rfl, rfl⟩ (by simp)
    · rename_i c' hskip
      cases h
      have hc : c'.active = c.active ∧ c'.writable = c.writable ∧
        c'.writeTrigger = c.writeTrigger := by
        simp only [Conn.skip] at hskip
        split at hskip <;> cases hskip
        exact ⟨rfl, rfl, rfl⟩
      exact hs.busy rfl hx hc (by split <;> simp)
  | register =>
    cases r with
    | ok n =>
      cases h
      obtain ⟨hp, -, ht⟩ := hs.exact.busy rfl
      exact ⟨hx, by simp, fun _ hn => absurd rfl hn, fun h => absurd h ht, hs.sends,
        fun _ => .inl rfl, fun ha _ => hs.closed ha (.inl rfl)⟩
    | fail e =>
      cases h
      exact hs.busy rfl hx ⟨rfl, rfl, rfl⟩ (by simp)
  | waitFlush =>
    obtain ⟨err, ht, he⟩ := Option.map_eq_some_iff.mp (show c.writeTrigger.map _ = some s' from h)
    cases he
    refine ⟨hx, by simp, fun ha _ => ?_, (by simp), hs.sends, (by simp),
      fun _ hn => by simp [WriterPc.busy] at hn⟩
    cases err with
    | none => exact ⟨hs.token ht, (hs.exact.token ht).2, rfl⟩
    | some e =>
      have hno : c.active = false := hs.exact.error e ht
      exact absurd (show c.active = true from ha) (by simp [hno])
  | timedOut => exact absurd rfl hs.untimed.1
  | expired => exact absurd rfl hs.untimed.2
  | returned err =>
    cases h
    exact ⟨hx, by simp, fun ha _ => hs.apart ha (by simp), hs.token, hs.sends, (by simp),
      fun _ hn => by simp [WriterPc.busy] at hn⟩

theorem handle (hs : Patient s) {c : Conn β} {p : PollerPc β} (hp : s.poller ≠ .idle)
    (hx : Exact { s with conn := c, poller := p }) (ha : c.active = s.conn.active)
    (ht : c.writeTrigger = some none → p = .idle) (hsend : ∀ vs, p = .send vs → vs ≠ [])
    (hwake : s.conn.writable = true ∨ s.poller = .trigger ∨ s.conn.writeTrigger ≠ none →
      c.writable = true ∨ p = .trigger ∨ c.writeTrigger ≠ none)
    (htok : s.conn.writeTrigger ≠ none → c.writeTrigger ≠ none) :
    Patient { s with conn := c, poller := p } where
  exact := hx
  untimed := hs.untimed
  apart hact hn := absurd (hs.apart (ha ▸ hact) hn).1 hp
  token := ht
  sends := hsend
  wakes hn := hwake (hs.wakes hn)
  closed hact hn := (hs.closed (ha ▸ hact) hn).imp_right htok

theorem poller (hs : Patient s) (h : pollerStep s r = some s') : Patient s' := by
  have hx := hs.exact.poller h
  obtain ⟨c, w, p, cl⟩ := s
  have htoken : p ≠ .idle → c.writeTrigger = some none → ∀ q : PollerPc β, q = .idle :=
    fun hp ht => absurd (hs.token ht) hp
  have hkeep : p ≠ .trigger → c.writable = true ∨ p = .trigger ∨ c.writeTrigger ≠ none →
      ∀ q : PollerPc β, c.writable = true ∨ q = .trigger ∨ c.writeTrigger ≠ none :=
    fun hp h _ => h.imp_right fun h => .inr (h.resolve_left hp)
  cases p with
  | idle => cases h
  | outputs =>
    cases h
    refine hs.handle (by simp) hx rfl (fun ht => htoken (by simp) ht _) (fun vs hv => ?_)
      (fun h => hkeep (by simp) h _) fun h => h
    · by_cases hc : c.isEmpty = true
      · simp [hc] at hv
      · simp only [hc] at hv
        cases hv
        exact Conn.offered_ne_nil fun hb => hc (Conn.isEmpty_iff.mpr hb)
  | send vs =>
    cases r with
    | ok n =>
      cases h
      exact hs.handle (by simp) hx rfl (fun ht => htoken (by simp) ht _) (by simp)
        (fun h => hkeep (by simp) h _) fun h => h
    | fail e =>
      cases h
      exact hs.handle (by simp) hx rfl (fun ht => htoken (by simp) ht _) (by simp)
        (fun h => hkeep (by simp) h _) fun h => h
  | ack n =>
    cases h
    have hc : ((c.skip n).getD c).active = c.active ∧ ((c.skip n).getD c).writable = c.writable ∧
        ((c.skip n).getD c).writeTrigger = c.writeTrigger := by
      simp only [Conn.skip]
      split <;> exact ⟨rfl, rfl, rfl⟩
    refine hs.handle (by simp) hx hc.1 (fun ht => htoken (by simp) (hc.2.2 ▸ ht) _)
      (fun vs hv => ?_) ?_ ?_
    · dsimp only at hv
      split at hv <;> cases hv
    · rw [hc.2.1, hc.2.2]
      exact fun h => hkeep (by simp) h _
    · rw [hc.2.2]
      exact fun h => h
  | rw2r =>
    cases h
    exact hs.handle (by simp) hx rfl (fun ht => htoken (by simp) ht _) (by simp)
      (fun _ => .inr (.inl rfl)) fun h => h
  | trigger =>
    cases h
    have hne : (c.triggerWrite none).writeTrigger ≠ none := by
      simp only [Conn.triggerWrite]
      split
      · rename_i ht
        exact Option.isSome_iff_ne_none.mp ht
      · simp
    exact hs.handle (by simp) hx (by simp only [Conn.triggerWrite]; split <;> rfl) (fun _ => rfl)
      (by simp) (fun _ => .inr (.inr hne)) fun _ => hne

theorem step [DecidableEq β]
    {a : Label β} (hs : Patient s) (ha : a.untimed = true) (h : step s a = some s') :
    Patient s' := by
  cases a with
  | call more nodes =>
    obtain ⟨c, w, p, cl⟩ := s
    have hcall := h
    simp only [Flush.step] at h
    split at h <;> cases h
    rename_i hw
    cases show w = _ from hw
    by_cases hact : c.active = true
    · obtain ⟨hp, hwr, ht⟩ := hs.apart hact (by simp)
      have hx := hs.exact.step (a := .call more nodes) (decide_eq_true ⟨hp, ht⟩) hcall
      simp only [hact, if_true] at hx ⊢
      exact ⟨hx, by simp, fun _ _ => ⟨hp, hwr, ht⟩, hs.token, hs.sends, (by simp),
        fun hn => by simp [Conn.submit, hact] at hn⟩
    · simp only [hact]
      have hx :
        Exact { (⟨c, .idle, p, cl⟩ : System β) with writer := .returned (some .connClosed) } :=
        hs.exact.move rfl rfl (fun h => h) (.inl rfl) (fun h => absurd h hact) (by simp)
      exact ⟨hx, by simp, fun ha => absurd ha hact, hs.token, hs.sends, (by simp),
        fun _ hn => by simp [WriterPc.busy] at hn⟩
  | writer r => exact hs.writer h
  | timeout => cases ha
  | event =>
    have hx := hs.exact.step (a := .event) rfl h
    simp only [Flush.step] at h
    split at h <;> cases h
    rename_i hp
    exact ⟨hx, hs.untimed, fun hact hn => absurd hp.1 (by simp [(hs.apart hact hn).2.1]),
      fun ht => absurd hp.1 (by simp [(hs.exact.token ht).2]), (by simp), fun _ => .inl hp.1,
      hs.closed⟩
  | poller r => exact hs.poller h
  | close =>
    have hx := hs.exact.step (a := .close) rfl h
    simp only [Flush.step] at h
    split at h <;> cases h
    exact ⟨hx, hs.untimed, (by simp), hs.token, hs.sends, hs.wakes, fun _ _ => .inl rfl⟩
  | closeTrigger =>
    have hx := hs.exact.step (a := .closeTrigger) rfl h
    simp only [Flush.step] at h
    split at h <;> cases h
    rename_i hcl
    have hact := hs.exact.closer hcl
    by_cases ht : s.conn.writeTrigger.isSome = true
    · have hne : s.conn.writeTrigger ≠ none := by simpa [Option.isSome_iff_ne_none] using ht
      simp only [Conn.triggerWrite, ht, if_true] at hx ⊢
      exact ⟨hx, hs.untimed, hs.apart, hs.token, hs.sends, hs.wakes, fun _ _ => .inr hne⟩
    · simp only [Conn.triggerWrite, ht] at hx ⊢
      exact ⟨hx, hs.untimed, fun h => by simp [hact] at h, (by simp), hs.sends,
        fun _ => .inr (.inr (by simp)), fun _ _ => .inr (by simp)⟩

end Patient

theorem patient_run [DecidableEq β] (hr : Reach step (fun _ a => a.untimed = true) init s) :
    Patient s :=
  hr.invariant .init fun _ _ _ hs ha h => hs.step ha h

/-- Without a write timeout the kernel gets what is submitted, every byte once and in order: what it
has not got yet is in the buffer.  The writer and the poller are never both at work on the buffer,
and what they offer to the kernel is the front of it; between two calls the poller is away, so that
the next bytes can be written. -/
theorem output_in_order [DecidableEq β] (hr : Reach step (fun _ a => a.untimed = true) init s) :
    s.conn.submitted = s.conn.kernel ++ rest s.conn.bytes s.writer s.poller ∧
      (s.writer.busy = true → s.poller = .idle) ∧
      (∀ vs, s.writer = .send vs ∨ s.poller = .send vs → vs <+: s.conn.bytes) ∧
      (s.conn.active = true → s.writer = .idle → s.poller = .idle ∧ s.conn.writable = false) := by
  have hs := patient_run hr
  refine ⟨hs.exact.stream, fun hb => (hs.exact.busy hb).1, fun vs hv => ?_, fun hact hw => ?_⟩
  · exact hv.elim (hs.exact.writerSend vs) (hs.exact.pollerSend vs)
  · obtain ⟨hp, hwr, -⟩ := hs.apart hact (by simp [hw])
    exact ⟨hp, hwr⟩

theorem output_in_order_sent : ∃ s : System Nat, Reach step (fun _ a => a.untimed = true) init s ∧
    s.poller = .ack 1 ∧ s.conn.bytes = [1, 2] ∧ s.conn.submitted = s.conn.kernel ++ [2] := by
  have hrun : ∃ s : System Nat, runs (guarded step fun _ a => a.untimed) init
      [.call [1, 2] [], .writer (.ok 0), .writer (.fail .eagain), .writer (.ok 0), .writer (.ok 0),
        .event, .poller (.ok 0), .poller (.ok 1)] = some s ∧
      s.writer = .waitFlush ∧ s.poller = .ack 1 ∧ s.conn.bytes = [1, 2] :=
    ⟨_, rfl, rfl, rfl, rfl⟩
  obtain ⟨s, hs, hw, hp, hb⟩ := hrun
  have hr := Reach.of_runs hs
  have hstream := (output_in_order hr).1
  rw [hw, hp, hb] at hstream
  exact ⟨s, hr, hp, hb, hstream⟩

def WriterPc.rank (n : Nat) : WriterPc β → Nat
  | .flush => 4 * n + 10
  | .send _ => 4 * n + 9
  | .skip _ => 4 * n + 8
  | .register => 4 * n + 7
  | .waitFlush => 2
  | .returned _ => 1
  | .idle | .timedOut | .expired => 0

def PollerPc.rank (n : Nat) (writable : Bool) : PollerPc β → Nat
  | .idle => if writable then 4 * n + 4 else 0
  | .outputs => 4 * n + 3
  | .send _ => 4 * n + 2
  | .ack m => 4 * (n - m) + 5
  | .rw2r => 2
  | .trigger => 1

def rank (s : System β) : Nat :=
  s.writer.rank s.conn.bytes.length + s.poller.rank s.conn.bytes.length s.conn.writable +
    s.closer.toNat

theorem Conn.skip_bytes {c c' : Conn β} {n : Nat} (h : c.skip n = some c') :
    c'.bytes.length = c.bytes.length - n ∧ c'.writable = c.writable := by
  simp only [Conn.skip] at h
  split at h <;> cases h
  exact ⟨by rw [Conn.bytes, flatten_skipNodes, List.length_drop]; rfl, rfl⟩

theorem Conn.triggerWrite_bytes (c : Conn β) (err : Option FlushErr) :
    (c.triggerWrite err).bytes = c.bytes ∧ (c.triggerWrite err).writable = c.writable := by
  simp only [Conn.triggerWrite]
  split <;> exact ⟨rfl, rfl⟩

namespace Patient

theorem writer_lowers (hs : Patient s) (h : writerStep s r = some s') : rank s' < rank s := by
  obtain ⟨c, w, p, cl⟩ := s
  -- before the wait the poller is away
  have hidle : w.busy = true → p = .idle ∧ c.writable = false := fun hb =>
    ⟨(hs.exact.busy hb).1, (hs.exact.busy hb).2.1⟩
  cases w with
  | idle => cases h
  | flush =>
    cases h
    simp only [rank]
    split <;> simp [WriterPc.rank]
  | send vs =>
    cases r with
    | ok n =>
      cases h
      simp [rank, WriterPc.rank, Conn.accept, Conn.bytes]
    | fail e =>
      cases e <;> cases h <;> simp [rank, WriterPc.rank]
  | skip n =>
    obtain ⟨rfl, hw⟩ := hidle rfl
    simp only [writerStep] at h
    split at h
    · cases h
      simp [rank, WriterPc.rank]
    · rename_i c' hskip
      cases h
      obtain ⟨hlen, hw'⟩ := Conn.skip_bytes hskip
      simp only [rank, hlen, hw', hw, PollerPc.rank]
      split <;> simp only [WriterPc.rank, Bool.false_eq_true, if_false] <;> omega
  | register =>
    obtain ⟨rfl, hw⟩ := hidle rfl
    cases r with
    | ok n =>
      cases h
      simp only [rank, WriterPc.rank, PollerPc.rank, hw, Conn.bytes, Bool.false_eq_true, if_true,
        if_false]
      omega
    | fail e =>
      cases h
      simp [rank, WriterPc.rank]
  | waitFlush =>
    obtain ⟨err, ht, he⟩ := Option.map_eq_some_iff.mp (show c.writeTrigger.map _ = some s' from h)
    cases he
    simp [rank, WriterPc.rank, Conn.bytes]
  | timedOut => exact absurd rfl hs.untimed.1
  | expired => exact absurd rfl hs.untimed.2
  | returned err =>
    cases h
    simp [rank, WriterPc.rank]

theorem poller_lowers (hs : Patient s) (ha : (Label.poller r).forward s = true)
    (h : pollerStep s r = some s') :
    rank s' < rank s := by
  obtain ⟨c, w, p, cl⟩ := s
  have hw : ∀ n n', p ≠ .idle → w.rank n = w.rank n' := fun n n' hp => by
    cases w <;> first | rfl | exact absurd (hs.exact.busy rfl).1 hp
  cases p with
  | idle => cases h
  | outputs =>
    cases h
    simp only [rank]
    split <;> simp only [PollerPc.rank] <;> omega
  | send vs =>
    cases r with
    | fail e => cases ha
    | ok n =>
      cases h
      have hn : 0 < n := of_decide_eq_true ha
      have hvs : 0 < vs.length := List.length_pos_iff.mpr (hs.sends vs rfl)
      have hle : vs.length ≤ c.bytes.length := (hs.exact.pollerSend vs rfl).length_le
      have hb : (c.accept vs n).bytes = c.bytes := rfl
      simp only [rank, PollerPc.rank, hb]
      omega
  | ack n =>
    cases h
    obtain ⟨c', hskip⟩ : ∃ c', c.skip n = some c' :=
      ⟨_, (Conn.skip_eq (hs.exact.pollerAck n rfl)).choose_spec.1⟩
    obtain ⟨hlen, hwr⟩ := Conn.skip_bytes hskip
    simp only [rank, hskip, Option.getD_some, hlen,
      hw (c.bytes.length - n) c.bytes.length (by simp)]
    split
    · simp only [PollerPc.rank]
      omega
    · simp only [PollerPc.rank]
      split <;> omega
  | rw2r =>
    cases h
    simp [rank, PollerPc.rank, Conn.bytes]
  | trigger =>
    cases h
    have hwr : c.writable = false := hs.exact.trigger rfl
    obtain ⟨hb, hwr'⟩ := c.triggerWrite_bytes none
    simp [rank, PollerPc.rank, hb, hwr', hwr]

theorem lowers [DecidableEq β]
    {a : Label β} (hs : Patient s) (ha : a.forward s = true) (h : Flush.step s a = some s') :
    rank s' < rank s := by
  cases a with
  | call more nodes => cases ha
  | writer r => exact hs.writer_lowers h
  | timeout => cases ha
  | event =>
    simp only [Flush.step] at h
    split at h <;> cases h
    rename_i hp
    simp [rank, hp.1, hp.2, PollerPc.rank]
  | poller r => exact hs.poller_lowers ha h
  | close => cases ha
  | closeTrigger =>
    simp only [Flush.step] at h
    split at h <;> cases h
    rename_i hcl
    obtain ⟨hb, hwr⟩ := s.conn.triggerWrite_bytes (some .connClosed)
    simp [rank, hb, hwr, hcl]

theorem rank_le (hs : Patient s) : rank s ≤ 4 * s.conn.bytes.length + 11 := by
  have hcl : s.closer.toNat ≤ 1 := Bool.toNat_le s.closer
  by_cases hb : s.writer.busy = true
  · obtain ⟨hp, hw, -⟩ := hs.exact.busy hb
    have hwr : s.writer.rank s.conn.bytes.length ≤ 4 * s.conn.bytes.length + 10 := by
      cases s.writer <;> simp [WriterPc.rank]
    have : s.poller.rank s.conn.bytes.length s.conn.writable = 0 := by simp [hp, hw, PollerPc.rank]
    rw [rank]
    omega
  · have hwr : s.writer.rank s.conn.bytes.length ≤ 2 := by
      cases hw : s.writer <;> simp_all [WriterPc.rank, WriterPc.busy]
    have hpr : s.poller.rank s.conn.bytes.length s.conn.writable ≤ 4 * s.conn.bytes.length + 5 := by
      cases s.poller <;> simp only [PollerPc.rank] <;> first | omega | (split <;> omega)
    rw [rank]
    omega

theorem goes_on [DecidableEq β] (hs : Patient s) (hw : s.writer.outside = false) :
    ∃ a : Label β, (guarded Flush.step (fun s a => a.forward s) s a).isSome = true := by
  have hwriter : (writerStep s (.ok 0)).isSome = true →
      ∃ a : Label β, (guarded Flush.step (fun s a => a.forward s) s a).isSome = true := fun h =>
    ⟨.writer (.ok 0), by simpa [guarded, Label.forward, Flush.step] using h⟩
  by_cases hwait : s.writer = .waitFlush
  · by_cases ht : s.conn.writeTrigger = none
    · by_cases hp : s.poller = .idle
      · by_cases hact : s.conn.active = true
        · -- EPOLLOUT is registered
          have hwr : s.conn.writable = true :=
            (hs.wakes hwait).resolve_right fun h => h.elim (fun h => by simp [hp] at h)
            fun h => h ht
          exact ⟨.event, by simp [guarded, Label.forward, Flush.step, hwr, hp]⟩
        · have hcl : s.closer = true :=
            (hs.closed (by simpa using hact) (.inr hwait)).resolve_right fun h => h ht
          exact ⟨.closeTrigger, by simp [guarded, Label.forward, Flush.step, hcl]⟩
      · refine ⟨.poller (.ok 1), ?_⟩
        cases hpc : s.poller <;> simp_all [guarded, Label.forward, Flush.step, pollerStep]
    · obtain ⟨err, he⟩ := Option.ne_none_iff_exists'.mp ht
      exact hwriter (by simp [writerStep, hwait, he])
  · refine hwriter ?_
    cases hpc : s.writer <;> simp_all [writerStep, WriterPc.outside]
    split <;> simp

end Patient

/-- Without a write timeout every call of `Flush` returns.  If the kernel takes at least one byte of
what the poller offers, the writer and the poller make at most four steps for each byte and eleven
more, in any order, and one of them can go on until the call has returned; if it returns nil, the
kernel has every byte. -/
theorem flush_returns [DecidableEq β] {as : List (Label β)}
    (hr : Reach step (fun _ a => a.untimed = true) init s)
    (hrun : runs (guarded step fun s a => a.forward s) s as = some s') :
    as.length ≤ 4 * s.conn.bytes.length + 11 ∧
      (s'.writer.outside = false → ∃ a : Label β,
        (guarded step (fun s a => a.forward s) s' a).isSome = true) ∧
      (s'.writer = .returned none → s'.conn.kernel = s'.conn.submitted) := by
  have hs := patient_run hr
  obtain ⟨hs', hle⟩ := runs_rank rank (I := Patient) (fun _ a _ hs ha h =>
    ⟨hs.step (by cases a <;> first | rfl | cases ha) h, hs.lowers ha h⟩) hs hrun
  refine ⟨?_, hs'.goes_on, fun hret => ?_⟩
  · have := hs.rank_le
    omega
  · have hrest : rest s'.conn.bytes s'.writer s'.poller = [] := by
      rw [hret, hs'.exact.returned hret]
      cases s'.poller <;> simp [rest]
    rw [hs'.exact.stream, hrest, List.append_nil]

theorem flush_returns_waiting : ∃ (s s' : System Nat) (as : List (Label Nat)),
    Reach step (fun _ a => a.untimed = true) init s ∧ s.writer = .waitFlush ∧
      runs (guarded step fun s a => a.forward s) s as = some s' ∧ s'.writer = .returned none ∧
      as.length ≤ 19 ∧ s'.conn.kernel = [1, 2] := by
  have hrun : ∃ s : System Nat, runs (guarded step fun _ a => a.untimed) init
      [.call [1, 2] [], .writer (.ok 0), .writer (.fail .eagain), .writer (.ok 0),
        .writer (.ok 0)] = some s ∧
      s.writer = .waitFlush ∧ s.conn.bytes.length = 2 ∧
      ∃ s' as, runs (guarded step fun s a => a.forward s) s as = some s' ∧
      s'.writer = .returned none ∧
        s'.conn.submitted = [1, 2] :=
    ⟨_, rfl, rfl, rfl, _,
      [.event, .poller (.ok 0), .poller (.ok 1), .poller (.ok 0), .event, .poller (.ok 0),
        .poller (.ok 1), .poller (.ok 0), .poller (.ok 0), .poller (.ok 0), .writer (.ok 0)], rfl,
        rfl, rfl⟩
  obtain ⟨s, hs, hw, hlen, s', as, has, hret, hsub⟩ := hrun
  have hr := Reach.of_runs hs
  obtain ⟨hle, -, hk⟩ := flush_returns hr has
  rw [hlen] at hle
  exact ⟨s, s', as, hr, hw, has, hret, hle, (hk hret).trans hsub⟩

end Netpoll.Flush
