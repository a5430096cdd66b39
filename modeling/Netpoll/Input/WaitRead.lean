import Mathlib.Tactic.Common
import Netpoll.Connection.Lifecycle

/-! `waitRead` and `triggerRead`, which connections and read FIFOs share word for
word: the reader publishes `waitReadSize` and then tests the length, the poller
publishes the length and then tests `waitReadSize`, and data and errors come
through one channel with a single slot. -/

namespace Netpoll.Input

open Netpoll.Connection (Who)

inductive ReadErr
  | eof (suffix : String) | connClosed (suffix : String)
  deriving DecidableEq, Repr

structure Inbox where
  length : Nat
  waitReadSize : Nat
  readTrigger : Option (Option ReadErr)
  closing : Who
  deriving DecidableEq, Repr

def triggerRead (slot : Option (Option ReadErr)) (err : Option ReadErr) :
    Option (Option ReadErr) :=
  if slot.isSome then slot else some err

inductive WaitPc
  | entry (n : Nat) | store (n : Nat) | test (n : Nat) | status (n : Nat) | recv (n : Nat)
  -- the deferred store, with the result of the call
  | clear (n : Nat) (err : Option ReadErr)
  deriving DecidableEq, Repr

/-- One access of `waitRead`; no program counter is left when the call returns. -/
def waitRead (b : Inbox) : WaitPc → Option (Inbox × Option WaitPc)
  | .entry n => some (b, if n ≤ b.length then none else some (.store n))
  | .store n => some ({ b with waitReadSize := n }, some (.test n))
  | .test n => some (b, some (if b.length < n then .status n else .clear n none))
  | .status n =>
    match b.closing with
    | .poller => some (b, some (.clear n (some (.eof "wait read"))))
    | .user => some (b, some (.clear n (some (.connClosed "wait read"))))
    | .none => some (b, some (.recv n))
  | .recv n =>
    match b.readTrigger with
    | none => none
    | some none => some ({ b with readTrigger := none }, some (.test n))
    | some (some err) => some ({ b with readTrigger := none }, some (.clear n (some err)))
  | .clear _ _ => some ({ b with waitReadSize := 0 }, none)

def WaitPc.size : WaitPc → Nat
  | .entry n | .store n | .test n | .status n | .recv n | .clear n _ => n

def WaitPc.armed : WaitPc → Bool
  | .test _ | .status _ | .recv _ | .clear _ _ => true
  | _ => false

def WaitPc.waits : WaitPc → Bool
  | .status _ | .recv _ => true
  | _ => false

def WaitPc.blocked : WaitPc → Bool
  | .recv _ => true
  | _ => false

theorem WaitPc.armed_of_waits {w : WaitPc} (hw : w.waits) : w.armed := by
  cases w <;> simp_all [WaitPc.waits, WaitPc.armed]

@[simp] theorem triggerRead_isSome (slot : Option (Option ReadErr)) (err : Option ReadErr) :
    (triggerRead slot err).isSome := by
  unfold triggerRead
  split <;> simp_all

inductive WaitStep (b : Inbox) : WaitPc → Inbox → Option WaitPc → Prop
  | enough {n} : n ≤ b.length → WaitStep b (.entry n) b none
  | begin {n} : WaitStep b (.entry n) b (some (.store n))
  | store {n} : WaitStep b (.store n) { b with waitReadSize := n } (some (.test n))
  | short {n} : b.length < n → WaitStep b (.test n) b (some (.status n))
  | full {n} : n ≤ b.length → WaitStep b (.test n) b (some (.clear n none))
  | closed {n e} : b.closing ≠ .none → WaitStep b (.status n) b (some (.clear n (some e)))
  | wait {n} : b.closing = .none → WaitStep b (.status n) b (some (.recv n))
  | retry {n} : b.readTrigger = some none →
      WaitStep b (.recv n) { b with readTrigger := none } (some (.test n))
  | failed {n e} : b.readTrigger = some (some e) →
      WaitStep b (.recv n) { b with readTrigger := none } (some (.clear n (some e)))
  | clear {n e} : WaitStep b (.clear n e) { b with waitReadSize := 0 } none

theorem waitRead_cases {b b' : Inbox} {w : WaitPc} {r : Option WaitPc}
    (h : waitRead b w = some (b', r)) : WaitStep b w b' r := by
  cases w with
  | entry n =>
    simp only [waitRead] at h
    split at h <;> cases h
    · exact .enough ‹_›
    · exact .begin
  | store n =>
    cases h
    exact .store
  | test n =>
    simp only [waitRead] at h
    split at h <;> cases h
    · exact .short ‹_›
    · exact .full (Nat.le_of_not_lt ‹_›)
  | status n =>
    simp only [waitRead] at h
    split at h <;> cases h
    · exact .closed (by simp [*])
    · exact .closed (by simp [*])
    · exact .wait ‹_›
  | recv n =>
    simp only [waitRead] at h
    split at h <;> cases h
    · exact .retry ‹_›
    · exact .failed ‹_›
  | clear n err =>
    cases h
    exact .clear

section

variable {b b' : Inbox} {w w' : WaitPc} {r : Option WaitPc}

theorem waitRead_length (h : waitRead b w = some (b', r)) : b'.length = b.length := by
  cases waitRead_cases h <;> rfl

theorem waitRead_closing (h : waitRead b w = some (b', r)) : b'.closing = b.closing := by
  cases waitRead_cases h <;> rfl

theorem waitRead_size (h : waitRead b w = some (b', some w')) : w'.size = w.size := by
  cases waitRead_cases h <;> rfl

theorem waitRead_slot (h : waitRead b w = some (b', r)) :
    b'.readTrigger = b.readTrigger ∨ b'.readTrigger = none := by
  cases waitRead_cases h <;> simp

end

structure Heard (b : Inbox) (w : WaitPc) (data : Nat → Prop) (close : Prop) : Prop where
  armed : w.armed → b.waitReadSize = w.size
  data : w.waits → w.size ≤ b.length → b.readTrigger.isSome ∨ data w.size
  close : w.blocked → b.closing ≠ .none → b.readTrigger.isSome ∨ close

namespace Heard

variable {b b' : Inbox} {w w' : WaitPc} {D D' : Nat → Prop} {K K' : Prop}

theorem step (hh : Heard b w D K) (hs : waitRead b w = some (b', some w')) :
    Heard b' w' D K := by
  cases waitRead_cases hs with
  | begin | store =>
    constructor <;> simp [WaitPc.armed, WaitPc.waits, WaitPc.blocked, WaitPc.size]
  | short hlt =>
    refine ⟨fun _ => hh.armed rfl, fun _ hle => ?_, by simp [WaitPc.blocked]⟩
    simp only [WaitPc.size] at hle
    omega
  | wait hc => exact ⟨fun _ => hh.armed rfl, fun _ => hh.data rfl, fun _ hn => absurd hc hn⟩
  | full | closed | retry | failed =>
    exact ⟨fun _ => hh.armed rfl, by simp [WaitPc.waits], by simp [WaitPc.blocked]⟩

theorem other (hh : Heard b w D K) (hsize : b'.waitReadSize = b.waitReadSize)
    (hslot : b.readTrigger.isSome → b'.readTrigger.isSome)
    (hdata : w.waits → w.size ≤ b'.length → w.size ≤ b.length ∨ D' w.size)
    (hD : w.waits → D w.size → b'.readTrigger.isSome ∨ D' w.size)
    (hclose : b'.closing ≠ .none → b.closing ≠ .none ∨ K')
    (hK : K → b'.readTrigger.isSome ∨ K') : Heard b' w D' K' where
  armed ha := hsize.trans (hh.armed ha)
  data hw hle := by
    rcases hdata hw hle with hle | hd
    · exact (hh.data hw hle).elim (fun ht => .inl (hslot ht)) (hD hw)
    · exact .inr hd
  close hb hc := by
    rcases hclose hc with hc | hk
    · exact (hh.close hb hc).elim (fun ht => .inl (hslot ht)) hK
    · exact .inr hk

theorem of_slot (hh : Heard b w D K) {slot : Option (Option ReadErr)} (ht : slot.isSome) :
    Heard { b with readTrigger := slot } w D' K' :=
  ⟨hh.armed, fun _ _ => .inl ht, fun _ _ => .inl ht⟩

theorem mono (hh : Heard b w D K) (hD : ∀ n, D n → D' n) (hK : K → K') : Heard b w D' K' :=
  ⟨hh.armed, fun hw hle => (hh.data hw hle).imp id (hD _), fun hb hc => (hh.close hb hc).imp id hK⟩

theorem nothing_due (hh : Heard b w D K) (hb : w.blocked) (ht : b.readTrigger = none)
    (hD : ¬ D w.size) (hK : ¬ K) : b.length < w.size ∧ b.closing = .none := by
  constructor
  · by_contra hle
    rcases hh.data (by cases w <;> simp_all [WaitPc.blocked, WaitPc.waits]) (by omega) with h | h
    · simp [ht] at h
    · exact hD h
  · by_contra hc
    rcases hh.close hb hc with h | h
    · simp [ht] at h
    · exact hK h

end Heard

end Netpoll.Input
