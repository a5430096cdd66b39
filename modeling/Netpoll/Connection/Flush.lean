import Netpoll.Lib.Transition
import Netpoll.Fifo.WriteFifo

/-! `Flush` and `Write` of a connection against the poller's `outputs` and
`outputAck`.  The lock `flushing` lets one caller through at a time, so that
there is one writer; the poller is inside the handler of a writable event or not. -/

namespace Netpoll.Flush

open Netpoll.Lib.Transition
open Netpoll.Poll.Handler (Errno SysRes iovecs)
open Netpoll.WriteFifo (barriercap getBytes)

inductive FlushErr
  | connClosed | writeTimeout | sys (e : Errno) | skip
  deriving DecidableEq, Repr

variable {β : Type*}

structure Conn (β : Type*) where
  /-- the unread bytes of `outputBuffer`, node by node from `read` to `flush` -/
  nodes : List (List β)
  active : Bool
  writable : Bool
  writeTrigger : Option (Option FlushErr)
  submitted : List β
  kernel : List β

inductive WriterPc (β : Type*)
  | idle | flush | send (vs : List β) | skip (n : Nat) | register
  | waitFlush | timedOut | expired | returned (err : Option FlushErr)
  deriving DecidableEq

inductive PollerPc (β : Type*)
  | idle | outputs | send (vs : List β) | ack (n : Nat) | rw2r | trigger
  deriving DecidableEq

structure System (β : Type*) where
  conn : Conn β
  writer : WriterPc β
  poller : PollerPc β
  closer : Bool

inductive Label (β : Type*)
  /-- a call begins; its bytes fill the last node by `more` and then nodes of
  their own -/
  | call (more : List β) (nodes : List (List β))
  | writer (r : SysRes)
  | timeout
  | event
  | poller (r : SysRes)
  | close
  | closeTrigger

namespace Conn

def bytes (c : Conn β) : List β := c.nodes.flatten

def isEmpty (c : Conn β) : Bool := c.bytes.isEmpty

def offered (c : Conn β) : List β :=
  c.bytes.take (iovecs 0 (getBytes barriercap (c.nodes.map List.length))).sum

def submit (c : Conn β) (more : List β) (nodes : List (List β)) : Conn β :=
  { c with
    nodes := c.nodes.dropLast ++ (c.nodes.getLastD [] ++ more) :: nodes
    submitted := c.submitted ++ (more ++ nodes.flatten) }

def accept (c : Conn β) (vs : List β) (n : Nat) : Conn β :=
  { c with kernel := c.kernel ++ vs.take n }

def skipNodes : Nat → List (List β) → List (List β)
  | _, [] => []
  | n, l :: nodes => if n ≤ l.length then l.drop n :: nodes else skipNodes (n - l.length) nodes

def skip (c : Conn β) (n : Nat) : Option (Conn β) :=
  if c.bytes.length < n then none else some { c with nodes := skipNodes n c.nodes }

def triggerWrite (c : Conn β) (err : Option FlushErr) : Conn β :=
  if c.writeTrigger.isSome then c else { c with writeTrigger := some err }

end Conn

def writerStep (s : System β) (r : SysRes) : Option (System β) :=
  match s.writer with
  | .idle => none
  | .flush =>
    some { s with writer := if s.conn.isEmpty then .returned none else .send s.conn.offered }
  | .send vs =>
    match r with
    | .ok n => some { s with conn := s.conn.accept vs n, writer := .skip (min n vs.length) }
    | .fail .eagain => some { s with writer := .skip 0 }
    | .fail e => some { s with writer := .returned (some (.sys e)) }
  | .skip n =>
    match s.conn.skip n with
    | none => some { s with writer := .returned (some .skip) }
    | some c => some { s with conn := c, writer := if c.isEmpty then .returned none else .register }
  | .register =>
    match r with
    | .ok _ => some { s with conn.writable := true, writer := .waitFlush }
    | .fail e => some { s with writer := .returned (some (.sys e)) }
  | .waitFlush =>
    s.conn.writeTrigger.map fun err =>
      { s with conn.writeTrigger := none, writer := .returned err }
  | .timedOut =>
    some (match s.conn.writeTrigger with
      | some err => { s with conn.writeTrigger := none, writer := .returned err }
      | none => { s with writer := .expired })
  | .expired =>
    some { s with conn.writable := false, writer := .returned (some .writeTimeout) }
  | .returned _ => some { s with writer := .idle }

def pollerStep (s : System β) (r : SysRes) : Option (System β) :=
  match s.poller with
  | .idle => none
  | .outputs => some { s with poller := if s.conn.isEmpty then .rw2r else .send s.conn.offered }
  | .send vs =>
    match r with
    | .ok n => some { s with conn := s.conn.accept vs n, poller := .ack (min n vs.length) }
    | .fail _ => some { s with poller := .ack 0 }
  | .ack n =>
    -- the error of `Skip` is not looked at
    let c := (s.conn.skip n).getD s.conn
    some { s with conn := c, poller := if c.isEmpty then .rw2r else .idle }
  | .rw2r => some { s with conn.writable := false, poller := .trigger }
  | .trigger => some { s with conn := s.conn.triggerWrite none, poller := .idle }

def step [DecidableEq β] (s : System β) : Label β → Option (System β)
  | .call more nodes =>
    if s.writer = .idle then
      some (if s.conn.active then { s with conn := s.conn.submit more nodes, writer := .flush }
        else { s with writer := .returned (some .connClosed) })
    else none
  | .writer r => writerStep s r
  | .timeout => if s.writer = .waitFlush then some { s with writer := .timedOut } else none
  | .event =>
    if s.conn.writable ∧ s.poller = .idle then some { s with poller := .outputs } else none
  | .poller r => pollerStep s r
  | .close =>
    if s.conn.active then some { s with conn.active := false, closer := true } else none
  | .closeTrigger =>
    if s.closer then
      some { s with conn := s.conn.triggerWrite (some .connClosed), closer := false }
    else none

def init : System β := ⟨⟨[[]], true, false, none, [], []⟩, .idle, .idle, false⟩

/-- A call begins only when the poller has left the handler and no token waits. -/
def Label.orderly [DecidableEq β] (s : System β) : Label β → Bool
  | .call .. => s.poller = .idle ∧ s.conn.writeTrigger = none
  | _ => true

namespace Conn

variable {c c' : Conn β} {n : Nat} {vs : List β}

theorem isEmpty_iff : c.isEmpty = true ↔ c.bytes = [] := List.isEmpty_iff

theorem bytes_submit (more : List β) (nodes : List (List β)) :
    (c.submit more nodes).bytes = c.bytes ++ (more ++ nodes.flatten) := by
  obtain h | ⟨init, l, h⟩ := List.eq_nil_or_concat c.nodes
  · simp [submit, bytes, h]
  · simp [submit, bytes, h]

theorem flatten_skipNodes (n : Nat) (nodes : List (List β)) :
    (skipNodes n nodes).flatten = nodes.flatten.drop n := by
  induction nodes generalizing n with
  | nil => simp [skipNodes]
  | cons l nodes ih =>
    simp only [skipNodes]
    split
    · rename_i hn
      simp [List.drop_append_of_le_length hn]
    · rename_i hn
      have hl : l.drop n = [] := List.drop_eq_nil_of_le (by omega)
      rw [ih, List.flatten_cons, List.drop_append, hl, List.nil_append]

theorem skip_eq (hn : n ≤ c.bytes.length) :
    ∃ ns, c.skip n = some { c with nodes := ns } ∧ ns.flatten = c.bytes.drop n :=
  ⟨_, if_neg (by omega), flatten_skipNodes n c.nodes⟩

theorem split_accepted (hv : vs <+: c.bytes) (n : Nat) :
    c.bytes = vs.take n ++ c.bytes.drop (min n vs.length) := by
  have htake : c.bytes.take (min n vs.length) = vs.take n := by
    rw [← List.take_take, ← List.prefix_iff_eq_take.mp hv]
  rw [← htake, List.take_append_drop]

theorem offered_le : c.offered <+: c.bytes := List.take_prefix _ _

end Conn

def WriterPc.busy : WriterPc β → Bool
  | .flush | .send _ | .skip _ | .register => true
  | _ => false

def WriterPc.outside : WriterPc β → Bool
  | .idle | .returned _ => true
  | _ => false

def rest (bytes : List β) : WriterPc β → PollerPc β → List β
  | .skip n, _ => bytes.drop n
  | _, .ack n => bytes.drop n
  | _, _ => bytes

structure Exact (s : System β) : Prop where
  stream : s.conn.submitted = s.conn.kernel ++ rest s.conn.bytes s.writer s.poller
  writerSend : ∀ vs, s.writer = .send vs → vs <+: s.conn.bytes
  writerSkip : ∀ n, s.writer = .skip n → n ≤ s.conn.bytes.length
  pollerSend : ∀ vs, s.poller = .send vs → vs <+: s.conn.bytes
  pollerAck : ∀ n, s.poller = .ack n → n ≤ s.conn.bytes.length
  busy : s.writer.busy → s.poller = .idle ∧ s.conn.writable = false ∧
    s.conn.writeTrigger ≠ some none
  drained : s.poller = .rw2r ∨ s.poller = .trigger → s.conn.bytes = []
  trigger : s.poller = .trigger → s.conn.writable = false
  token : s.conn.writeTrigger = some none → s.conn.bytes = [] ∧ s.conn.writable = false
  error : ∀ e, s.conn.writeTrigger = some (some e) → s.conn.active = false
  closer : s.closer = true → s.conn.active = false
  between : s.conn.active = true → s.writer.outside → s.conn.writable = false
  returned : s.writer = .returned none → s.conn.bytes = []

namespace Exact

variable {s s' : System β} {r : SysRes}

theorem init : Exact (init : System β) := by
  constructor <;> simp [Flush.init, Conn.bytes, rest, WriterPc.busy]

theorem rest_of_not_busy {bytes : List β} {w w' : WriterPc β} {p : PollerPc β} (hw : w.busy = false)
    (hw' : w'.busy = false) : rest bytes w p = rest bytes w' p := by
  cases w <;> cases w' <;> simp_all [WriterPc.busy] <;> cases p <;> rfl

theorem alone (hp : s.poller = .idle) (hw : s.conn.writable = false)
    (ht : s.conn.writeTrigger ≠ some none)
    (herr : ∀ e, s.conn.writeTrigger = some (some e) → s.conn.active = false)
    (hcl : s.closer = true → s.conn.active = false)
    (hstream : s.conn.submitted = s.conn.kernel ++ rest s.conn.bytes s.writer .idle)
    (hsend : ∀ vs, s.writer = .send vs → vs <+: s.conn.bytes)
    (hskip : ∀ n, s.writer = .skip n → n ≤ s.conn.bytes.length)
    (hret : s.writer = .returned none → s.conn.bytes = []) : Exact s where
  stream := by rw [hp, hstream]
  writerSend := hsend
  writerSkip := hskip
  pollerSend := by simp [hp]
  pollerAck := by simp [hp]
  busy _ := ⟨hp, hw, ht⟩
  drained := by simp [hp]
  trigger := by simp [hp]
  token h := absurd h ht
  error := herr
  closer := hcl
  between _ _ := hw
  returned := hret

theorem move (hs : Exact s) {w : WriterPc β} {u : Bool} {e : Option (Option FlushErr)}
    (hb : s.writer.busy = false) (hw : w.busy = false) (hu : s.conn.writable = false → u = false)
    (he : e = s.conn.writeTrigger ∨ e = none)
    (hbetween : s.conn.active = true → w.outside → u = false)
    (hret : w = .returned none → s.conn.bytes = []) :
    Exact { s with conn := { s.conn with writable := u, writeTrigger := e }, writer := w } where
  stream := hs.stream.trans (congrArg _ (rest_of_not_busy hb hw))
  writerSend vs h := by
    cases show w = _ from h
    simp [WriterPc.busy] at hw
  writerSkip n h := by
    cases show w = _ from h
    simp [WriterPc.busy] at hw
  pollerSend := hs.pollerSend
  pollerAck := hs.pollerAck
  busy h := by simp [show w.busy = true from h] at hw
  drained := hs.drained
  trigger h := hu (hs.trigger h)
  token h := by
    obtain rfl | rfl := he
    · exact ⟨(hs.token h).1, hu (hs.token h).2⟩
    · cases h
  error x h := by
    obtain rfl | rfl := he
    · exact hs.error x h
    · cases h
  closer := hs.closer
  between := hbetween
  returned := hret

theorem take (hs : Exact s) {err : Option FlushErr} (hb : s.writer.busy = false)
    (he : s.conn.writeTrigger = some err) :
    Exact { s with conn.writeTrigger := none, writer := .returned err } := by
  refine hs.move (u := s.conn.writable) hb rfl (fun h => h) (.inr rfl) (fun hact _ => ?_)
    fun h => ?_
  · cases err with
    | none => exact (hs.token he).2
    | some e => simp [hs.error e he] at hact
  · cases h
    exact (hs.token he).1

theorem writer (hs : Exact s) (h : writerStep s r = some s') : Exact s' := by
  obtain ⟨c, w, p, cl⟩ := s
  cases w with
  | idle => cases h
  | flush =>
    cases h
    obtain ⟨rfl, hw, ht⟩ := hs.busy rfl
    by_cases hc : c.isEmpty = true
    · simp only [hc, if_true]
      exact alone rfl hw ht hs.error hs.closer hs.stream nofun nofun fun _ => Conn.isEmpty_iff.mp hc
    · simp only [hc]
      refine alone rfl hw ht hs.error hs.closer hs.stream ?_ nofun nofun
      rintro vs ⟨⟩
      exact Conn.offered_le
  | send vs =>
    obtain ⟨rfl, hw, ht⟩ := hs.busy rfl
    have hstream : c.submitted = c.kernel ++ c.bytes := hs.stream
    have hv := hs.writerSend vs rfl
    simp only [writerStep] at h
    split at h <;> cases h
    · rename_i n
      refine alone rfl hw ht hs.error hs.closer ?_ nofun ?_ nofun
      · have hsplit := Conn.split_accepted hv n
        simp only [Conn.accept, Conn.bytes, rest, List.append_assoc] at hsplit hstream ⊢
        rw [← hsplit, hstream]
      · rintro _ ⟨⟩
        exact Nat.le_trans (Nat.min_le_right _ _) hv.length_le
    · refine alone rfl hw ht hs.error hs.closer hstream nofun ?_ nofun
      rintro _ ⟨⟩
      exact Nat.zero_le _
    · exact alone rfl hw ht hs.error hs.closer hstream nofun nofun nofun
  | skip n =>
    obtain ⟨rfl, hw, ht⟩ := hs.busy rfl
    obtain ⟨ns, hc, hns⟩ := Conn.skip_eq (hs.writerSkip n rfl)
    have hstream : c.submitted = c.kernel ++ ns.flatten := by
      rw [hns]
      exact hs.stream
    simp only [writerStep, hc] at h
    cases h
    by_cases hc : Conn.isEmpty { c with nodes := ns } = true
    · simp only [hc, if_true]
      exact alone rfl hw ht hs.error hs.closer hstream nofun nofun fun _ => Conn.isEmpty_iff.mp hc
    · simp only [hc]
      exact alone rfl hw ht hs.error hs.closer hstream nofun nofun nofun
  | register =>
    obtain ⟨rfl, hw, ht⟩ := hs.busy rfl
    simp only [writerStep] at h
    split at h <;> cases h
    · exact ⟨hs.stream, nofun, nofun, nofun, nofun, nofun, nofun, nofun, fun h => absurd h ht,
        hs.error, hs.closer, nofun, nofun⟩
    · exact alone rfl hw ht hs.error hs.closer hs.stream nofun nofun nofun
  | waitFlush =>
    obtain ⟨err, he, rfl⟩ := Option.map_eq_some_iff.mp h
    exact hs.take rfl he
  | timedOut =>
    cases h
    cases he : c.writeTrigger with
    | some err => exact hs.take rfl he
    | none => exact hs.move rfl rfl (fun h => h) (.inl rfl) nofun nofun
  | expired =>
    cases h
    exact hs.move rfl rfl (fun _ => rfl) (.inl rfl) (fun _ _ => rfl) nofun
  | returned err =>
    cases h
    exact hs.move rfl rfl (fun h => h) (.inl rfl) (fun ha _ => hs.between ha rfl) nofun

theorem stream_of_not_busy (hs : Exact s) (hb : s.writer.busy = false) :
    s.conn.submitted = s.conn.kernel ++ rest s.conn.bytes .idle s.poller :=
  hs.stream.trans (congrArg _ (rest_of_not_busy hb rfl))

theorem handle (hs : Exact s) {c : Conn β} {p : PollerPc β} (hb : s.writer.busy = false)
    (hact : c.active = s.conn.active)
    (hstream : c.submitted = c.kernel ++ rest c.bytes .idle p)
    (hnil : s.conn.bytes = [] → c.bytes = [])
    (hw : s.conn.writable = false → c.writable = false)
    (ht : c.writeTrigger = s.conn.writeTrigger ∨
      c.writeTrigger = some none ∧ c.bytes = [] ∧ c.writable = false)
    (hsend : ∀ vs, p = .send vs → vs <+: c.bytes) (hack : ∀ n, p = .ack n → n ≤ c.bytes.length)
    (hdrained : p = .rw2r ∨ p = .trigger → c.bytes = [])
    (htrigger : p = .trigger → c.writable = false) :
    Exact { s with conn := c, poller := p } where
  stream := hstream.trans (congrArg _ (rest_of_not_busy rfl hb))
  writerSend vs h := by simp [show s.writer = _ from h, WriterPc.busy] at hb
  writerSkip n h := by simp [show s.writer = _ from h, WriterPc.busy] at hb
  pollerSend := hsend
  pollerAck := hack
  busy h := by simp [show s.writer.busy = true from h] at hb
  drained := hdrained
  trigger := htrigger
  token h := by
    obtain he | ⟨-, hc⟩ := ht
    · obtain ⟨h1, h2⟩ := hs.token (he ▸ h)
      exact ⟨hnil h1, hw h2⟩
    · exact hc
  error e h := by
    obtain he | ⟨hc, -⟩ := ht
    · exact hact.trans (hs.error e (he ▸ h))
    · cases hc.symm.trans h
  closer h := hact.trans (hs.closer h)
  between h ho := hw (hs.between (hact ▸ h) ho)
  returned h := hnil (hs.returned h)

theorem poller (hs : Exact s) (h : pollerStep s r = some s') : Exact s' := by
  obtain ⟨c, w, p, cl⟩ := s
  have hb : p ≠ .idle → w.busy = false := fun hp => by
    by_contra hw
    exact hp (hs.busy (by simpa using hw)).1
  cases p with
  | idle => cases h
  | outputs =>
    cases h
    have hb := hb nofun
    have hstream : c.submitted = c.kernel ++ c.bytes := hs.stream_of_not_busy hb
    by_cases hc : c.isEmpty = true
    · simp only [hc, if_true]
      exact hs.handle hb rfl hstream (fun h => h) (fun h => h) (.inl rfl) nofun nofun
        (fun _ => Conn.isEmpty_iff.mp hc) nofun
    · simp only [hc]
      refine hs.handle hb rfl hstream (fun h => h) (fun h => h) (.inl rfl) ?_ nofun nofun nofun
      rintro vs ⟨⟩
      exact Conn.offered_le
  | send vs =>
    have hb := hb nofun
    have hstream : c.submitted = c.kernel ++ c.bytes := hs.stream_of_not_busy hb
    have hv := hs.pollerSend vs rfl
    simp only [pollerStep] at h
    split at h <;> cases h
    · rename_i n
      refine hs.handle hb rfl ?_ (fun h => h) (fun h => h) (.inl rfl) nofun ?_ nofun nofun
      · have hsplit := Conn.split_accepted hv n
        simp only [Conn.accept, Conn.bytes, rest, List.append_assoc] at hsplit hstream ⊢
        rw [← hsplit, hstream]
      · rintro _ ⟨⟩
        exact Nat.le_trans (Nat.min_le_right _ _) hv.length_le
    · refine hs.handle hb rfl hstream (fun h => h) (fun h => h) (.inl rfl) nofun ?_ nofun nofun
      rintro _ ⟨⟩
      exact Nat.zero_le _
  | ack n =>
    have hb := hb nofun
    obtain ⟨ns, hc, hns⟩ := Conn.skip_eq (hs.pollerAck n rfl)
    have hstream : c.submitted = c.kernel ++ ns.flatten := by
      rw [hns]
      exact hs.stream_of_not_busy hb
    have hnil : c.bytes = [] → ns.flatten = [] := fun h => by simp [hns, h]
    simp only [pollerStep, hc, Option.getD_some] at h
    cases h
    by_cases hc : Conn.isEmpty { c with nodes := ns } = true
    · simp only [hc, if_true]
      exact hs.handle hb rfl hstream hnil (fun h => h) (.inl rfl) nofun nofun
        (fun _ => Conn.isEmpty_iff.mp hc) nofun
    · simp only [hc]
      exact hs.handle hb rfl hstream hnil (fun h => h) (.inl rfl) nofun nofun nofun nofun
  | rw2r =>
    cases h
    have hb := hb nofun
    exact hs.handle hb rfl (hs.stream_of_not_busy hb) (fun h => h) (fun _ => rfl)
      (.inl rfl) nofun nofun (fun _ => hs.drained (.inl rfl)) fun _ => rfl
  | trigger =>
    cases h
    have hb := hb nofun
    have hstream : c.submitted = c.kernel ++ c.bytes := hs.stream_of_not_busy hb
    by_cases ht : c.writeTrigger.isSome = true
    · simp only [Conn.triggerWrite, ht, if_true]
      exact hs.handle hb rfl hstream (fun h => h) (fun h => h) (.inl rfl) nofun nofun nofun nofun
    · simp only [Conn.triggerWrite, ht]
      exact hs.handle hb rfl hstream (fun h => h) (fun h => h)
        (.inr ⟨rfl, hs.drained (.inr rfl), hs.trigger rfl⟩) nofun nofun nofun nofun

theorem step [DecidableEq β] {a : Label β} (hs : Exact s) (ha : a.orderly s = true)
    (h : step s a = some s') : Exact s' := by
  cases a with
  | call more nodes =>
    obtain ⟨c, w, p, cl⟩ := s
    simp only [Flush.step] at h
    split at h <;> cases h
    rename_i hw
    cases show w = _ from hw
    obtain ⟨hp, ht⟩ : p = .idle ∧ c.writeTrigger = none := of_decide_eq_true ha
    subst hp
    by_cases hact : c.active = true
    · simp only [hact, if_true]
      refine alone rfl (hs.between hact rfl) ?_ hs.error hs.closer ?_ nofun nofun nofun
      · show c.writeTrigger ≠ _
        simp [ht]
      · have hstream : c.submitted = c.kernel ++ c.bytes := hs.stream
        show c.submitted ++ _ = c.kernel ++ (c.submit more nodes).bytes
        rw [Conn.bytes_submit, hstream, List.append_assoc]
    · simp only [hact]
      exact hs.move rfl rfl (fun h => h) (.inl rfl) (fun h => absurd h hact) nofun
  | writer r => exact hs.writer h
  | timeout =>
    simp only [Flush.step] at h
    split at h <;> cases h
    rename_i hw
    exact hs.move (by rw [hw]; rfl) rfl (fun h => h) (.inl rfl) nofun nofun
  | event =>
    obtain ⟨c, w, p, cl⟩ := s
    simp only [Flush.step] at h
    split at h <;> cases h
    rename_i hp
    obtain ⟨hwr, rfl⟩ : c.writable = true ∧ p = .idle := hp
    have hb : w.busy = false := by
      by_contra hw
      simp [show c.writable = false from (hs.busy (by simpa using hw)).2.1] at hwr
    exact hs.handle hb rfl (hs.stream_of_not_busy hb) (fun h => h)
      (fun h => h) (.inl rfl) nofun nofun nofun nofun
  | poller r => exact hs.poller h
  | close =>
    simp only [Flush.step] at h
    split at h <;> cases h
    exact { hs with
      error := fun _ _ => rfl
      closer := fun _ => rfl
      between := nofun }
  | closeTrigger =>
    obtain ⟨c, w, p, cl⟩ := s
    simp only [Flush.step] at h
    split at h <;> cases h
    rename_i hcl
    by_cases ht : c.writeTrigger.isSome = true
    · simp only [Conn.triggerWrite, ht, if_true]
      exact { hs with closer := nofun }
    · simp only [Conn.triggerWrite, ht]
      exact { hs with
        busy := fun hb => ⟨(hs.busy hb).1, (hs.busy hb).2.1, nofun⟩
        token := nofun
        error := fun _ _ => hs.closer hcl
        closer := nofun }

end Exact

/-- `Flush` or `Write` has returned nil: nothing is left in the output buffer, and
the kernel has taken every byte that was submitted, in order. -/
theorem flush_sent [DecidableEq β] {s : System β}
    (hr : Reach step (fun s a => a.orderly s = true) init s) (hret : s.writer = .returned none) :
    s.conn.bytes = [] ∧ s.conn.kernel = s.conn.submitted := by
  have hs : Exact s := hr.invariant .init fun _ _ _ hs ha h => hs.step ha h
  have hnil := hs.returned hret
  refine ⟨hnil, ?_⟩
  have hrest : rest s.conn.bytes s.writer s.poller = [] := by
    rw [hret, hnil]
    cases s.poller <;> simp [rest]
  rw [hs.stream, hrest, List.append_nil]

theorem flush_sent_after_timeout :
    ∃ s : System Nat, Reach step (fun s a => a.orderly s = true) init s ∧
      s.writer = .returned none ∧ s.conn.bytes = [] ∧ s.conn.kernel = [1, 2, 3] := by
  have hrun : ∃ s : System Nat, runs (guarded step fun s a => a.orderly s) init
      [.call [1, 2] [], .writer (.ok 0), .writer (.ok 1), .writer (.ok 0), .writer (.ok 0),
        .timeout, .writer (.ok 0), .writer (.ok 0), .writer (.ok 0), .call [3] [], .writer (.ok 0),
        .writer (.fail .eagain), .writer (.ok 0), .writer (.ok 0), .event, .poller (.ok 0),
        .poller (.ok 2), .poller (.ok 0), .poller (.ok 0), .poller (.ok 0),
        .writer (.ok 0)] = some s ∧
      s.writer = .returned none ∧ s.conn.submitted = [1, 2, 3] :=
    ⟨_, rfl, rfl, rfl⟩
  obtain ⟨s, hs, hret, hsub⟩ := hrun
  have hr := Reach.of_runs hs
  obtain ⟨hnil, hk⟩ := flush_sent hr hret
  exact ⟨s, hr, hret, hnil, hk.trans hsub⟩

/-- The poller drains the buffer just after the timeout, and the next call takes
the token for its own.  Or both send the same two bytes, skip two each, and the
others are never sent. -/
theorem flush_takes_stale_token :
    (∃ s : System Nat, Reach step (fun _ _ => True) init s ∧ s.writer = .returned none ∧
      s.conn.bytes = [3]) ∧
    ∃ s : System Nat, Reach step (fun _ _ => True) init s ∧ s.writer = .returned none ∧
      s.conn.bytes = [] ∧ s.conn.submitted = [1, 2, 3, 4] ∧ s.conn.kernel = [1, 2, 1, 2] := by
  have hstale : ∃ s : System Nat, runs (guarded step fun _ _ => true) init
      [.call [1, 2] [], .writer (.ok 0), .writer (.ok 1), .writer (.ok 0), .writer (.ok 0), .event,
        .poller (.ok 0), .poller (.ok 1), .poller (.ok 0), .timeout, .writer (.ok 0),
        .writer (.ok 0), .writer (.ok 0), .poller (.ok 0), .poller (.ok 0), .call [3] [],
        .writer (.ok 0), .writer (.fail .eagain), .writer (.ok 0), .writer (.ok 0),
        .writer (.ok 0)] = some s ∧
      s.writer = .returned none ∧ s.conn.bytes = [3] :=
    ⟨_, rfl, rfl, rfl⟩
  have htwice : ∃ s : System Nat, runs (guarded step fun _ _ => true) init
      [.call [1, 2, 3, 4] [], .writer (.ok 0), .writer (.fail .eagain), .writer (.ok 0),
        .writer (.ok 0), .event, .poller (.ok 0), .timeout, .writer (.ok 0), .writer (.ok 0),
        .writer (.ok 0), .poller (.ok 2), .call [] [], .writer (.ok 0), .writer (.ok 2),
        .writer (.ok 0), .writer (.ok 0), .poller (.ok 0), .poller (.ok 0), .poller (.ok 0),
        .writer (.ok 0)] = some s ∧
      s.writer = .returned none ∧ s.conn.bytes = [] ∧ s.conn.submitted = [1, 2, 3, 4] ∧
      s.conn.kernel = [1, 2, 1, 2] :=
    ⟨_, rfl, rfl, rfl, rfl, rfl⟩
  obtain ⟨s, hs, hs'⟩ := hstale
  obtain ⟨v, hv, hv'⟩ := htwice
  exact ⟨⟨s, (Reach.of_runs hs).mono fun _ _ _ _ => trivial, hs'⟩, v,
    (Reach.of_runs hv).mono fun _ _ _ _ => trivial, hv'⟩

end Netpoll.Flush
