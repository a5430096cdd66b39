import Mathlib.Tactic.Common
import Netpoll.Fifo.WriteFifo

namespace Netpoll.WriteFifo

open Netpoll.Lib.Transition

variable {s s' : System} {a : Label}

/-- The writer registers at most once. -/
def Label.firstShort (s : System) : Label → Bool
  | .writer _ => s.writer != .register || s.registrations == 0
  | _ => true

def WriterPc.waits : WriterPc → Bool
  | .waitFlush | .expired => true
  | _ => false

structure Disciplined (s : System) : Prop where
  waits : s.fifo.registered → s.writer.waits ∧ s.fifo.detached = 0
  slot : s.fifo.writeTrigger.isSome → s.fifo.registered = false
  trigger : s.poller = .trigger → s.fifo.registered = false
  before : s.registrations = 0 →
    s.fifo.detached = 0 ∧ s.fifo.writeTrigger = none ∧ s.poller = .idle ∧ s.writer.waits = false

theorem control_detach {f : Fifo} (hf : f.registered → f.detached = 0) :
    (f.control .detach).1.registered = false := by
  cases hr : f.registered with
  | false =>
    simp only [Fifo.control, hr]
    split <;> simp
  | true => simp [Fifo.control, hf hr, hr]

namespace Disciplined

theorem not_registered (hd : Disciplined s) (hw : s.writer.waits = false) :
    s.fifo.registered = false := by
  by_contra hr
  simp [(hd.waits (by simpa using hr)).1] at hw

theorem detach (hd : Disciplined s) (hn : s.registrations ≠ 0) (w : WriterPc) (p : PollerPc) :
    Disciplined { s with fifo := (s.fifo.control .detach).1, writer := w, poller := p } := by
  have hr := control_detach fun hr => (hd.waits hr).2
  exact ⟨by simp [hr], fun _ => hr, fun _ => hr, fun h0 => absurd h0 hn⟩

theorem write (hd : Disciplined s) {nodes : List Nat} {w : WriterPc}
    (hs : s.writer.waits = false) (hw : w.waits = false) :
    Disciplined { s with fifo.nodes := nodes, writer := w } := by
  have hr := hd.not_registered hs
  refine ⟨by simp [hr], fun _ => hr, fun _ => hr, fun h0 => ?_⟩
  obtain ⟨h1, h2, h3, -⟩ := hd.before h0
  exact ⟨h1, h2, h3, hw⟩

theorem receive (hd : Disciplined s) (hn : s.registrations ≠ 0) {err : Option FlushErr}
    (ht : s.fifo.writeTrigger = some err) :
    Disciplined { s with fifo.writeTrigger := none, writer := .returned err } := by
  have hr := hd.slot (by simp [ht])
  exact ⟨by simp [hr], fun _ => hr, fun _ => hr, fun h0 => absurd h0 hn⟩

theorem registrations_ne (hd : Disciplined s) (hw : s.writer.waits ∨ s.poller ≠ .idle) :
    s.registrations ≠ 0 := by
  intro h0
  obtain ⟨-, -, h3, h4⟩ := hd.before h0
  rcases hw with hw | hw
  · simp [h4] at hw
  · exact hw h3

theorem writerStep (hd : Disciplined s) {r : Poll.Handler.SysRes}
    (hg : Label.firstShort s (.writer r)) (hs : writerStep s r = some s') : Disciplined s' := by
  unfold WriteFifo.writerStep at hs
  split at hs
  · cases hs
  · rename_i hw
    have hnw : s.writer.waits = false := by simp [hw, WriterPc.waits]
    split at hs
    · cases hs
      exact hd.write hnw rfl
    · split at hs <;> cases hs
      · exact hd.write hnw rfl
      · exact hd.write hnw rfl
      · exact hd.write hnw rfl
      · exact hd.write hnw (by split <;> rfl)
  · rename_i hw
    have hr := hd.not_registered (by simp [hw, WriterPc.waits])
    have h0 : s.registrations = 0 := by simpa [Label.firstShort, hw] using hg
    obtain ⟨h1, h2, h3, -⟩ := hd.before h0
    simp only [Fifo.control, hr] at hs
    cases hs
    exact ⟨fun _ => ⟨rfl, h1⟩, by simp [h2], by simp [h3], by simp⟩
  · rename_i hw
    obtain ⟨err, ht, rfl⟩ := Option.map_eq_some_iff.mp hs
    exact hd.receive (hd.registrations_ne (.inl (by simp [hw, WriterPc.waits]))) ht
  · rename_i hw
    cases hs
    exact hd.detach (hd.registrations_ne (.inl (by simp [hw, WriterPc.waits]))) _ _
  · rename_i hw
    cases hs
    exact hd.write (by simp [hw, WriterPc.waits]) rfl

theorem pollerStep (hd : Disciplined s) {n : Nat} (hs : pollerStep s n = some s') :
    Disciplined s' := by
  have hn (hp : s.poller ≠ .idle) := hd.registrations_ne (.inr hp)
  unfold WriteFifo.pollerStep at hs
  split at hs
  · cases hs
  · rename_i hp
    cases hs
    exact ⟨hd.waits, hd.slot, by split <;> simp, fun h0 => absurd h0 (hn (by simp [hp]))⟩
  · rename_i hp
    cases hs
    exact ⟨hd.waits, hd.slot, by split <;> simp, fun h0 => absurd h0 (hn (by simp [hp]))⟩
  · rename_i hp
    cases hs
    exact hd.detach (hn (by simp [hp])) _ _
  · rename_i hp
    cases hs
    have hr := hd.trigger hp
    have hsame : (s.fifo.triggerWrite none).registered = false := by
      unfold Fifo.triggerWrite
      split <;> exact hr
    exact ⟨by simp [hsame], fun _ => hsame, fun _ => hsame,
      fun h0 => absurd h0 (hn (by simp [hp]))⟩

theorem step (hd : Disciplined s) (hg : a.firstShort s) (hs : step s a = some s') :
    Disciplined s' := by
  cases a with
  | write more nodes =>
    simp only [WriteFifo.step] at hs
    split at hs <;> cases hs
    rename_i hw
    exact hd.write (by simp [hw, WriterPc.waits]) rfl
  | writer r => exact hd.writerStep hg hs
  | timeout =>
    simp only [WriteFifo.step] at hs
    split at hs <;> cases hs
    rename_i hw
    have hn := hd.registrations_ne (.inl (by simp [hw, WriterPc.waits]))
    split
    · exact hd.receive hn ‹_›
    · exact ⟨fun hr => ⟨rfl, (hd.waits hr).2⟩, hd.slot, hd.trigger, fun h0 => absurd h0 hn⟩
  | event =>
    simp only [WriteFifo.step] at hs
    split at hs <;> cases hs
    rename_i hp
    have hn := hd.registrations_ne (.inl (hd.waits hp.1).1)
    exact ⟨hd.waits, hd.slot, by simp, fun h0 => absurd h0 hn⟩
  | poller n => exact hd.pollerStep hs

theorem init : Disciplined init := by
  constructor <;> simp [WriteFifo.init, WriterPc.waits]

end Disciplined

/-- With one short write at most, the fd is outside the interest set whenever
`flush` registers it, so that this cannot fail, and whenever `Write` or `Flush`
has returned nil. -/
theorem registration_disciplined {s : System}
    (hr : Reach step (fun s a => a.firstShort s) init s) :
    (s.writer = .register → s.fifo.registered = false ∧
      ∀ r s', step s (.writer r) = some s' → s'.writer = .waitFlush) ∧
      (s.writer = .returned none → s.fifo.registered = false) := by
  have hd : Disciplined s := hr.invariant .init fun _ _ _ hd hg hs => hd.step hg hs
  refine ⟨fun hw => ?_, fun hw => hd.not_registered (by simp [hw, WriterPc.waits])⟩
  have hno := hd.not_registered (by simp [hw, WriterPc.waits])
  refine ⟨hno, fun r s' hs => ?_⟩
  simp only [step, writerStep, hw, Fifo.control, hno] at hs
  obtain rfl := Option.some.inj hs
  rfl

def shortWrite : List Label :=
  [.write 2 [], .writer (.ok 1), .writer (.ok 0), .event, .poller 0, .poller 1, .poller 0,
  .poller 0,
    .writer (.ok 0)]

theorem registration_disciplined_short :
    ∃ s, Reach step (fun s a => a.firstShort s) init s ∧ s.registrations = 1 ∧
      s.writer = .returned none ∧ s.fifo.registered = false := by
  have hrun : ∃ s, runs (guarded step fun s a => a.firstShort s) init shortWrite = some s ∧
      s.registrations = 1 ∧ s.writer = .returned none := ⟨_, rfl, rfl, rfl⟩
  obtain ⟨s, hs, hn, hw⟩ := hrun
  have hr := Reach.of_runs hs
  exact ⟨s, hr, hn, hw, (registration_disciplined hr).2 hw⟩

/-- The second short write returns nil and leaves the fd registered; the third
one fails. -/
theorem registration_left :
    ∃ s s', Reach step (fun _ _ => True) init s ∧ s.writer = .returned none ∧
      s.fifo.registered = true ∧ Reach step (fun _ _ => True) s s' ∧
      s'.writer = .returned (some (.ctl .eexist)) := by
  have hrun : ∃ s s', runs (guarded step fun _ _ => true) init
        (shortWrite ++ [.writer (.ok 0)] ++ shortWrite) = some s ∧
      runs (guarded step fun _ _ => true) s
        [.writer (.ok 0), .write 2 [], .writer (.ok 1), .writer (.ok 0)] = some s' ∧
      s.writer = .returned none ∧ s.fifo.registered = true ∧
      s'.writer = .returned (some (.ctl .eexist)) := ⟨_, _, rfl, rfl, rfl, rfl, rfl⟩
  obtain ⟨s, s', hs, hs', h1, h2, h3⟩ := hrun
  exact ⟨s, s', (Reach.of_runs hs).mono fun _ _ _ _ => trivial, h1, h2,
    (Reach.of_runs hs').mono fun _ _ _ _ => trivial, h3⟩

end Netpoll.WriteFifo
