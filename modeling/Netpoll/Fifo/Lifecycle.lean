import Netpoll.Fifo.FifoConnection

namespace Netpoll.FifoConnection

open Netpoll.Connection (Who Key)
open Netpoll.Lib.Transition

structure Ready (side : Side) (f : Fifo) : Prop where
  poll : ∃ op, f.operator = some op ∧ op.poll = true
  nodes : ∃ b, f.buffer = some b ∧ b.nodes = true
  barrier : side = .writer → f.barrier = true
  trigger : f.trigger = true
  processing : f.processing = .unlocked
  flushing : f.flushing = .unlocked
  attached : f.detaching = false
  finalizer : f.closeCallbacks = 1
  callback : side = .reader → f.onFifoRead = true

structure Shut (side : Side) (f : Fifo) : Prop where
  closing : f.closing ≠ .none
  processing : f.processing = .locked
  flushing : side = .writer → f.flushing = .stopped
  freed : ∃ op, f.operator = some op ∧ op.poll = false
  buffer : f.buffer = some .closed

def Fifo.held (f : Fifo) : List Nat := if 2 < f.fd then [f.fd] else []

inductive Half (side : Side) : Fifo → List Nat → Prop
  | live {f} : Ready side f → f.closing = .none → Half side f f.held
  | shut {f} : Shut side f → Half side f []

section Half

variable {side : Side} {f : Fifo} {fds held rest : List Nat}

theorem traverse_one : f.traverse side 1 fds = f.finalizer side fds := by
  simp only [Fifo.traverse]
  cases f.finalizer side fds <;> rfl

theorem Ready.control (hf : Ready side f) (e : PollEvent) :
    ∃ op, f.control e = some { f with operator := some op } ∧ op.poll = true := by
  obtain ⟨op, ho, hp⟩ := hf.poll
  cases e with
  | detach =>
    refine ⟨{ op with detached := op.detached + 1 }, ?_, hp⟩
    simp [Fifo.control, FDOperator.control, ho, hp]
  | readable => exact ⟨op, by simp [Fifo.control, FDOperator.control, ho, hp], hp⟩
  | writable => exact ⟨op, by simp [Fifo.control, FDOperator.control, ho, hp], hp⟩

theorem Ready.operator (hf : Ready side f) {op : FDOperator} (hp : op.poll = true) :
    Ready side { f with operator := some op } :=
  { hf with poll := ⟨op, rfl, hp⟩ }

theorem Fifo.release_held (f : Fifo) (hp : fds.Perm (f.held ++ rest)) :
    (if 2 < f.fd then fds.erase f.fd else fds).Perm rest := by
  unfold Fifo.held at hp
  split at hp
  · simpa [*] using hp.erase f.fd
  · simpa [*] using hp

theorem Ready.finalize (hf : Ready side f) (hc : f.closing ≠ .none)
    (hp : fds.Perm (f.held ++ rest)) :
    ∃ f' fds', { f with processing := .locked }.finalizer side fds = some (f', fds') ∧
      Shut side f' ∧ fds'.Perm rest := by
  obtain ⟨op, ho, hpoll⟩ := hf.poll
  obtain ⟨b, hb, -⟩ := hf.nodes
  cases side with
  | reader =>
    have hr := hf.callback rfl
    refine ⟨{ f with processing := .locked, operator := some ⟨false, 0⟩, buffer := some .closed },
      _, ?_, ⟨hc, rfl, nofun, ⟨_, rfl, rfl⟩, rfl⟩, f.release_held hp⟩
    simp [Fifo.finalizer, Fifo.readFinalizer, Fifo.release, FDOperator.free, ho, hpoll, hb, hr,
      hf.attached]
  | writer =>
    refine ⟨{ f with
      processing := .locked, flushing := .stopped, operator := some ⟨false, 0⟩,
      buffer := some .closed }, _, ?_, ⟨hc, rfl, fun _ => rfl, ⟨_, rfl, rfl⟩, rfl⟩,
        f.release_held hp⟩
    simp [Fifo.finalizer, Fifo.writeFinalizer, Fifo.release, FDOperator.free, ho, hpoll, hb,
      hf.attached]

theorem Ready.closeCallback (hf : Ready side f) (hc : f.closing ≠ .none) (needDetach : Bool)
    (hp : fds.Perm (f.held ++ rest)) :
    ∃ f' fds', f.closeCallback side needDetach fds = some (f', fds') ∧ Shut side f' ∧
    fds'.Perm rest := by
  have hd : ∃ op : FDOperator, op.poll = true ∧ f.closeCallback side needDetach fds =
      { f with operator := some op, processing := .locked }.finalizer side fds := by
    obtain ⟨op, ho, hp⟩ := hf.poll
    cases needDetach with
    | false =>
      refine ⟨op, hp, ?_⟩
      simp [Fifo.closeCallback, hf.processing, hf.finalizer, traverse_one, ← ho]
    | true =>
      refine ⟨{ op with detached := op.detached + 1 }, hp, ?_⟩
      simp [Fifo.closeCallback, hf.processing, hf.finalizer, traverse_one, ho, hp, Fifo.control,
        FDOperator.control]
  obtain ⟨op, hpoll, he⟩ := hd
  rw [he]
  exact (hf.operator hpoll).finalize hc hp

theorem Shut.closeCallback (hf : Shut side f) (needDetach : Bool) :
    f.closeCallback side needDetach fds = some (f, fds) := by
  simp [Fifo.closeCallback, hf.processing]

theorem Half.onClose (hf : Half side f held) (hp : fds.Perm (held ++ rest)) :
    ∃ f' fds', f.onClose side fds = some (f', fds') ∧ Shut side f' ∧ fds'.Perm rest := by
  cases hf with
  | live hr hc =>
    have hu : Ready side { f with closing := .user } := { hr with }
    obtain ⟨f', fds', he, hs⟩ := hu.closeCallback (by simp) true hp
    exact ⟨f', fds', by simpa [Fifo.onClose, hc] using he, hs⟩
  | shut hs =>
    have hu : Shut side { f with closing := .user } := { hs with closing := by simp }
    refine ⟨_, fds, ?_, hu, hp⟩
    simpa [Fifo.onClose, hs.closing] using hu.closeCallback false

theorem Half.onHup (hf : Half side f held) (hp : fds.Perm (held ++ rest)) :
    ∃ f' fds', f.onHup side fds = some (f', fds') ∧ Shut side f' ∧ fds'.Perm rest := by
  cases hf with
  | live hr hc =>
    have hu : Ready side { f with closing := .poller } := { hr with }
    obtain ⟨f', fds', he, hs⟩ := hu.closeCallback (by simp) false hp
    have hn : ¬(side = .reader ∧ f.onFifoRead = false) := fun h => by simp [hr.callback h.1] at h
    exact ⟨f', fds', by simpa [Fifo.onHup, hc, hn] using he, hs⟩
  | shut hs => exact ⟨f, fds, by simp [Fifo.onHup, hs.closing], hs, hp⟩

theorem Half.appendHup {op : FDOperator} (hf : Half side f held) (ho : f.operator = some op)
    (hp : op.poll = true) : ∃ f', f.appendHup = some f' ∧ Half side f' held := by
  cases hf with
  | live hr hc =>
    obtain ⟨op', he, hp'⟩ := hr.control .detach
    refine ⟨{ f with operator := some op', hung := true }, by simp [Fifo.appendHup, he], ?_⟩
    exact .live (f := { f with operator := some op', hung := true })
      { hr with poll := ⟨op', rfl, hp'⟩ } hc
  | shut hs =>
    obtain ⟨op', ho', hp'⟩ := hs.freed
    cases ho.symm.trans ho'
    simp [hp] at hp'

theorem Half.hung (hf : Half side f held) (q : Bool) : Half side { f with hung := q } held := by
  cases hf with
  | live hr hc => exact .live (f := { f with hung := q }) { hr with } hc
  | shut hs => exact .shut { hs with }

theorem Half.read (hf : Half .reader f held) (l : Nat) :
    f.read l = some none ∨ ∃ f', f.read l = some (some f') ∧ Half .reader f' held := by
  cases hf with
  | live hr hc =>
    obtain ⟨b, hb, hn⟩ := hr.nodes
    by_cases hl : l = 0
    · exact .inr ⟨f, by simp [Fifo.read, hl], .live hr hc⟩
    · by_cases h0 : b.length = 0
      · exact .inl (by simp [Fifo.read, hl, hb, h0, hc, hr.trigger])
      · let b' : Buffer := { b with length := b.length - min l b.length }
        refine .inr ⟨{ f with buffer := some b' }, by simp [Fifo.read, hl, hb, h0, hn, b'], ?_⟩
        exact .live (f := { f with buffer := some b' }) { hr with nodes := ⟨b', rfl, hn⟩ } hc
  | shut hs =>
    refine .inr ⟨f, ?_, .shut hs⟩
    simp [Fifo.read, hs.buffer, Buffer.closed, hs.closing]

theorem Half.write (hf : Half .writer f held) (r : Flush) :
    ∃ f', f.write r = some f' ∧ Half .writer f' held := by
  cases hf with
  | live hr hc =>
    obtain ⟨b, hb, hn⟩ := hr.nodes
    cases r with
    | empty => exact ⟨f, by simp [Fifo.write, hr.flushing, hb, hn], .live hr hc⟩
    | whole => exact ⟨f, by simp [Fifo.write, hr.flushing, hb, hn, hr.barrier rfl], .live hr hc⟩
    | short =>
      obtain ⟨op, he, hp⟩ := hr.control .writable
      obtain ⟨op', he', hp'⟩ := (hr.operator hp).control .detach
      have hw : f.write .short = (f.control .writable).bind (·.control .detach) := by
        simp [Fifo.write, hr.flushing, hb, hn, hr.barrier rfl, hr.trigger]
      refine ⟨{ f with operator := some op' }, ?_, .live (f := { f with operator := some op' })
        (hr.operator hp') hc⟩
      rw [hw, he, Option.bind_some, he']
  | shut hs => exact ⟨f, by simp [Fifo.write, hs.flushing rfl], .shut hs⟩

end Half

inductive Writer : Option Fifo → Bool → List Nat → Prop
  | blank : Writer (some {}) false []
  | made {f held} : Half .writer f held → Writer (some f) true held

/-- An attached connection whose halves hold the fds `lr` and `lw`; no close closes those in `low`.
-/
structure Sound (c : Conn) (lr lw low : List Nat) : Prop where
  panicked : c.panicked = false
  attached : c.attached = true
  reader : ∃ f, c.reader = some f ∧ Half .reader f lr
  writer : Writer c.writer c.writerReady lw
  fds : c.fds.Perm (lr ++ (lw ++ low))
  closed : c.closed = true → lr = [] ∧ lw = [] ∧ c.writerReady = true

def Attached (c : Conn) (low : List Nat) : Prop := ∃ lr lw, Sound c lr lw low

inductive Stage (c : Conn) (low : List Nat) : Prop
  | new : c = {} → low = [] → Stage c low
  | failed : c.panicked = false → c.attached = false → c.reader.isSome → c.closed = false →
      Stage c low
  | attached : Attached c low → Stage c low

def Open.high (o : Open) : Bool := o.fds.all (2 < ·)

def Open.low (o : Open) : List Nat := o.fds.filter fun fd => !decide (2 < fd)

def Label.low : Label → List Nat
  | .init r _ w => r.low ++ w.low
  | .tryInitWriter o | .write o _ => o.low
  | _ => []

def Label.ready (c : Conn) : Label → Bool
  | .close => c.isWriterReady
  | _ => true

/-- The opened fds are not those of the standard streams, and `Close` comes after
the writer has been initialised. -/
def Label.prepared (c : Conn) : Label → Bool
  | .init r _ w => r.high && w.high
  | .tryInitWriter o | .write o _ => o.high
  | .close => c.isWriterReady
  | _ => true

section Conn

variable {c c' : Conn} {lr lw low : List Nat}

theorem Open.low_of_high {o : Open} (ho : o.high = true) : o.low = [] := by
  simpa [Open.low, Open.high, List.filter_eq_nil_iff] using ho

theorem Label.ready_of_prepared {a : Label} (ha : a.prepared c = true) :
    a.ready c = true ∧ a.low = [] := by
  cases a with
  | init r _ w =>
    simp only [Label.prepared, Bool.and_eq_true] at ha
    simp [Label.ready, Label.low, Open.low_of_high ha.1, Open.low_of_high ha.2]
  | tryInitWriter o => simpa [Label.ready, Label.low] using Open.low_of_high ha
  | write o _ => simpa [Label.ready, Label.low] using Open.low_of_high ha
  | close => exact ⟨ha, rfl⟩
  | _ => exact ⟨rfl, rfl⟩

theorem Half.opened (side : Side) (fd : Nat) (cb : Bool) (hcb : side = .reader → cb = true) :
    ∃ held, Half side { Fifo.opened {} side fd with onFifoRead := cb } held ∧
      ∀ rest, (fd :: rest).Perm (held ++ ((Open.ok fd).low ++ rest)) := by
  refine ⟨_, .live (f := { Fifo.opened {} side fd with onFifoRead := cb })
    ⟨⟨_, rfl, rfl⟩, ⟨_, rfl, rfl⟩, by simp [Fifo.opened], rfl, rfl, rfl, rfl, rfl, hcb⟩ rfl,
    fun rest => .of_eq ?_⟩
  by_cases h2 : 2 < fd <;> simp [Fifo.held, Fifo.opened, Open.low, Open.fds, h2]

theorem Stage.init (r w : Open) (registered : Bool) :
    ∃ c', ({} : Conn).init r registered w = some c' ∧ Stage c' (r.low ++ w.low) := by
  cases r with
  | err e => exact ⟨_, rfl, .failed rfl rfl rfl rfl⟩
  | ok fd =>
    cases registered with
    | false => exact ⟨_, rfl, .failed rfl rfl rfl rfl⟩
    | true =>
      obtain ⟨lr, hrd, hpr⟩ := Half.opened .reader fd true fun _ => rfl
      cases w with
      | ok fd' =>
        obtain ⟨lw, hwr, hpw⟩ := Half.opened .writer fd' false nofun
        refine ⟨_, rfl, .attached ⟨lr, lw, rfl, rfl, ⟨_, rfl, hrd⟩, .made hwr, ?_, nofun⟩⟩
        have hrest : ((Open.ok fd).low ++ [fd']).Perm
            (lw ++ ((Open.ok fd).low ++ (Open.ok fd').low)) := by
          have hw := hpw []
          rw [List.append_nil] at hw
          exact (hw.append_left _).trans (List.perm_append_comm_assoc ..)
        exact (List.Perm.swap fd fd' []).trans ((hpr [fd']).trans (hrest.append_left lr))
      | err e =>
        cases e with
        | enxio =>
          refine ⟨_, rfl, .attached ⟨lr, [], rfl, rfl, ⟨_, rfl, hrd⟩, .blank, ?_, nofun⟩⟩
          simpa [Open.low, Open.fds] using hpr []
        | other => exact ⟨_, rfl, .failed rfl rfl rfl rfl⟩

namespace Sound

theorem isWriterReady (hc : Sound c lr lw low) : c.isWriterReady = c.writerReady := by
  have hw := hc.writer
  unfold Conn.isWriterReady
  cases hw' : c.writer with
  | none =>
    rw [hw'] at hw
    cases hw
  | some f => simp

theorem tryInitWriter (hc : Sound c lr lw low) (o : Open) :
    ∃ c' err lw' low', c.tryInitWriter o = some (c', err) ∧ Sound c' lr lw' low' ∧
      (o.low = [] → low' = low) ∧ (err = none → c'.writerReady = true) := by
  have hready := hc.isWriterReady
  obtain ⟨reader, writer, writerReady, attached, fds, closed, panicked⟩ := c
  cases hc.writer with
  | made hw =>
    refine ⟨_, none, lw, low, ?_, hc, fun _ => rfl, fun _ => rfl⟩
    simp only [Conn.tryInitWriter, hready, if_true]
  | blank =>
    cases o with
    | err e => exact ⟨_, some e, [], low, rfl, hc, fun _ => rfl, nofun⟩
    | ok fd =>
      obtain ⟨held, hwr, hp⟩ := Half.opened .writer fd false nofun
      refine ⟨_, none, held, (Open.ok fd).low ++ low, rfl,
        ⟨hc.panicked, hc.attached, hc.reader, .made hwr, ?_, fun h => ?_⟩, fun h => by rw [h]; rfl,
        fun _ => rfl⟩
      · have hfds : List.Perm fds (lr ++ low) := by simpa using hc.fds
        have hlow : ((Open.ok fd).low ++ fds).Perm (lr ++ ((Open.ok fd).low ++ low)) :=
          (hfds.append_left _).trans (List.perm_append_comm_assoc ..)
        exact (hp fds).trans ((hlow.append_left held).trans (List.perm_append_comm_assoc ..))
      · exact absurd (hc.closed h).2.2 (by simp)

theorem setReader (hc : Sound c lr lw low) {f : Fifo} {held fds : List Nat}
    (hf : Half .reader f held) (hnil : lr = [] → held = []) (hp : fds.Perm (held ++ (lw ++ low))) :
    Sound { c with reader := some f, fds } held lw low :=
  { hc with
    reader := ⟨f, rfl, hf⟩, fds := hp
    closed := fun h => ⟨hnil (hc.closed h).1, (hc.closed h).2⟩ }

theorem setWriter (hc : Sound c lr lw low) (hready : c.writerReady = true) {f : Fifo}
    {held fds : List Nat} (hf : Half .writer f held) (hnil : lw = [] → held = [])
    (hp : fds.Perm (lr ++ (held ++ low))) : Sound { c with writer := some f, fds } lr held low := by
  have hw : Writer (some f) c.writerReady held := by
    rw [hready]
    exact .made hf
  exact { hc with
    writer := hw, fds := hp
    closed := fun h => ⟨(hc.closed h).1, hnil (hc.closed h).2.1, hready⟩ }

theorem halfWriter (hc : Sound c lr lw low) (hready : c.writerReady = true) :
    ∃ f, c.writer = some f ∧ Half .writer f lw := by
  have hw := hc.writer
  rw [hready] at hw
  generalize c.writer = w at hw
  cases hw with
  | made hh => exact ⟨_, rfl, hh⟩

theorem write (hc : Sound c lr lw low) (o : Open) (r : Flush) :
    ∃ c' lw' low', c.write o r = some c' ∧ Sound c' lr lw' low' ∧ (o.low = [] → low' = low) := by
  obtain ⟨c₁, err, lw', low', he, hs, hlow, hready⟩ := hc.tryInitWriter o
  cases err with
  | some e => exact ⟨c₁, lw', low', by simp [Conn.write, he], hs, hlow⟩
  | none =>
    obtain ⟨f, hf, hh⟩ := hs.halfWriter (hready rfl)
    obtain ⟨f', hf', hh'⟩ := hh.write r
    refine ⟨{ c₁ with writer := some f' }, lw', low', by simp [Conn.write, he, hf, hf'], ?_, hlow⟩
    exact hs.setWriter (hready rfl) hh' id hs.fds

theorem close (hc : Sound c lr lw low) (hready : c.isWriterReady = true) :
    ∃ c', c.close = some c' ∧ Sound c' [] [] low ∧ c'.closed = true := by
  rw [hc.isWriterReady] at hready
  obtain ⟨f, hf, hh⟩ := hc.reader
  obtain ⟨f', fds, he, hs, hp⟩ := hh.onClose hc.fds
  have h₁ := hc.setReader (.shut hs) (fun _ => rfl) hp
  obtain ⟨g, hg, hh'⟩ := hc.halfWriter hready
  obtain ⟨g', fds', he', hs', hp'⟩ := hh'.onClose hp
  have h₂ := h₁.setWriter hready (.shut hs') (fun _ => rfl) hp'
  refine ⟨{ c with reader := some f', writer := some g', fds := fds', closed := true }, ?_,
    { h₂ with closed := fun _ => ⟨rfl, rfl, hready⟩ }, rfl⟩
  simp [Conn.close, Conn.closeHalf, Conn.half, Conn.setHalf, hf, he, hg, he']

theorem half (hc : Sound c lr lw low) {side : Side} {f : Fifo} (hf : c.half side = some f)
    (hblank : f ≠ {}) :
    ∃ held rest, Half side f held ∧ c.fds.Perm (held ++ rest) ∧
      ∀ {f' held' fds}, Half side f' held' → (held = [] → held' = []) →
        List.Perm fds (held' ++ rest) → Attached { c.setHalf f' side with fds } low := by
  cases side with
  | reader =>
    obtain ⟨g, hg, hh⟩ := hc.reader
    cases hf.symm.trans hg
    exact ⟨lr, lw ++ low, hh, hc.fds, fun hh' hnil hp => ⟨_, _, hc.setReader hh' hnil hp⟩⟩
  | writer =>
    cases hready : c.writerReady with
    | false =>
      have hw := hc.writer
      rw [show c.writer = some f from hf, hready] at hw
      cases hw
      exact absurd rfl hblank
    | true =>
      obtain ⟨g, hg, hh⟩ := hc.halfWriter hready
      cases hf.symm.trans hg
      refine ⟨lw, lr ++ low, hh, hc.fds.trans (List.perm_append_comm_assoc ..),
        fun hh' hnil hp => ?_⟩
      exact ⟨_, _, hc.setWriter hready hh' hnil (hp.trans (List.perm_append_comm_assoc ..))⟩

end Sound

theorem step_unattached {a : Label} (hn : c.attached = false) (hs : step c a = some c') :
    c.reader = none ∧ ∃ r registered w, a = .init r registered w := by
  obtain ⟨-, hs⟩ := Option.ite_none_left_eq_some.mp hs
  obtain ⟨x, ha, -⟩ := Option.map_eq_some_iff.mp hs
  cases a with
  | init r registered w =>
    obtain ⟨hg, -⟩ := Option.ite_none_right_eq_some.mp ha
    simp only [Bool.and_eq_true, Option.isNone_iff_eq_none] at hg
    exact ⟨hg.1.1.2, r, registered, w, rfl⟩
  | _ => simp [act, hn] at ha

namespace Sound

theorem read (hc : Sound c lr lw low) {l : Nat} {r : Option Conn} (ha : act c (.read l) = some r) :
    ∃ c', r = some c' ∧ Attached c' low := by
  obtain ⟨f, hf, hh⟩ := hc.reader
  simp only [act, hc.attached, hf, Bool.not_true, Bool.false_eq_true, if_false] at ha
  rcases hh.read l with he | ⟨f', he, hh'⟩
  · simp [he] at ha
  · refine ⟨{ c with reader := some f' }, ?_, _, _, hc.setReader hh' id hc.fds⟩
    simpa [he, hc.attached] using ha.symm

theorem deliver (hc : Sound c lr lw low) {n : Nat} {r : Option Conn}
    (ha : act c (.deliver n) = some r) : ∃ c', r = some c' ∧ Attached c' low := by
  obtain ⟨f, hf, hh⟩ := hc.reader
  simp only [act, hf, Option.bind_eq_bind, Option.bind_some, Option.bind_eq_some_iff] at ha
  obtain ⟨op, -, b, hb, ha⟩ := ha
  obtain ⟨hg, ha⟩ := Option.ite_none_right_eq_some.mp ha
  have hn : b.nodes = true := (Bool.and_eq_true _ _ ▸ hg).2
  refine ⟨_, (Option.some.inj ha).symm, _, _, hc.setReader ?_ id hc.fds⟩
  cases hh with
  | live hr hcl =>
    let b' : Buffer := { b with length := b.length + n }
    exact .live (f := { f with buffer := some b' }) { hr with nodes := ⟨b', rfl, hn⟩ } hcl
  | shut hs =>
    cases hs.buffer.symm.trans hb
    cases hn

theorem appendHup (hc : Sound c lr lw low) {side : Side} {r : Option Conn}
    (ha : act c (.appendHup side) = some r) : ∃ c', r = some c' ∧ Attached c' low := by
  simp only [act, Option.bind_eq_bind, Option.bind_eq_some_iff] at ha
  obtain ⟨f, hf, op, ho, ha⟩ := ha
  obtain ⟨hg, ha⟩ := Option.ite_none_right_eq_some.mp ha
  simp only [Bool.and_eq_true] at hg
  obtain ⟨held, rest, hh, hp, hset⟩ := hc.half hf (by rintro rfl; cases ho)
  obtain ⟨f', he, hh'⟩ := hh.appendHup ho hg.1.2
  rw [he] at ha
  refine ⟨_, (Option.some.inj ha).symm, ?_⟩
  have hs := hset hh' id hp
  cases side <;> exact hs

theorem onHup (hc : Sound c lr lw low) {side : Side} {r : Option Conn}
    (ha : act c (.onHup side) = some r) : ∃ c', r = some c' ∧ Attached c' low := by
  simp only [act, Option.bind_eq_bind, Option.bind_eq_some_iff] at ha
  obtain ⟨f, hf, ha⟩ := ha
  obtain ⟨hg, ha⟩ := Option.ite_none_right_eq_some.mp ha
  have hq : f.hung = true := (Bool.and_eq_true _ _ ▸ hg).2
  obtain ⟨held, rest, hh, hp, hset⟩ := hc.half hf (by rintro rfl; cases hq)
  obtain ⟨f', fds, he, hs, hp'⟩ := (hh.hung false).onHup hp
  rw [he] at ha
  exact ⟨_, (Option.some.inj ha).symm, hset (.shut hs) (fun _ => rfl) hp'⟩

theorem act (hc : Sound c lr lw low) {a : Label} {r : Option Conn} (hg : a.ready c = true)
    (ha : act c a = some r) :
    ∃ c' low', r = some c' ∧ Attached c' low' ∧ (a.low = [] → low' = low) := by
  cases a with
  | init o registered w => simp [FifoConnection.act, hc.attached] at ha
  | tryInitWriter o =>
    obtain ⟨-, ha⟩ := Option.ite_none_right_eq_some.mp ha
    obtain ⟨c', err, lw', low', he, hs, hlow, -⟩ := hc.tryInitWriter o
    exact ⟨c', low', by simpa [he] using ha.symm, ⟨_, _, hs⟩, hlow⟩
  | write o r' =>
    obtain ⟨-, ha⟩ := Option.ite_none_right_eq_some.mp ha
    obtain ⟨c', lw', low', he, hs, hlow⟩ := hc.write o r'
    exact ⟨c', low', by simpa [he] using ha.symm, ⟨_, _, hs⟩, hlow⟩
  | close =>
    obtain ⟨-, ha⟩ := Option.ite_none_right_eq_some.mp ha
    obtain ⟨c', he, hs, -⟩ := hc.close hg
    exact ⟨c', low, by simpa [he] using ha.symm, ⟨_, _, hs⟩, fun _ => rfl⟩
  | read l =>
    obtain ⟨c', he, hs⟩ := hc.read ha
    exact ⟨c', low, he, hs, fun _ => rfl⟩
  | deliver n =>
    obtain ⟨c', he, hs⟩ := hc.deliver ha
    exact ⟨c', low, he, hs, fun _ => rfl⟩
  | appendHup side =>
    obtain ⟨c', he, hs⟩ := hc.appendHup ha
    exact ⟨c', low, he, hs, fun _ => rfl⟩
  | onHup side =>
    obtain ⟨c', he, hs⟩ := hc.onHup ha
    exact ⟨c', low, he, hs, fun _ => rfl⟩

theorem step (hc : Sound c lr lw low) {a : Label} (hg : a.ready c = true)
    (hs : step c a = some c') : ∃ low', Attached c' low' ∧ (a.low = [] → low' = low) := by
  obtain ⟨-, hs⟩ := Option.ite_none_left_eq_some.mp hs
  obtain ⟨r, ha, rfl⟩ := Option.map_eq_some_iff.mp hs
  obtain ⟨c', low', rfl, hc'⟩ := hc.act hg ha
  exact ⟨low', hc'⟩

end Sound

theorem Stage.of_init {r w : Open} {registered : Bool}
    (hs : step {} (.init r registered w) = some c') : Stage c' (r.low ++ w.low) := by
  obtain ⟨-, hs⟩ := Option.ite_none_left_eq_some.mp hs
  obtain ⟨x, ha, rfl⟩ := Option.map_eq_some_iff.mp hs
  obtain ⟨-, rfl⟩ := Option.ite_some_none_eq_some.mp ha
  obtain ⟨c', he, hc'⟩ := Stage.init r w registered
  rw [he]
  exact hc'

theorem Stage.step (hc : Stage c low) {a : Label} (hg : a.ready c = true)
    (hs : step c a = some c') : ∃ low', Stage c' low' ∧ (a.low = [] → low' = low) := by
  cases hc with
  | new h0 hlow =>
    subst h0 hlow
    obtain ⟨-, r, registered, w, rfl⟩ := step_unattached rfl hs
    exact ⟨_, .of_init hs, id⟩
  | failed hp hn hr hcl => simp [(step_unattached hn hs).1] at hr
  | attached h =>
    obtain ⟨lr, lw, hc⟩ := h
    obtain ⟨low', hc', hlow⟩ := hc.step hg hs
    exact ⟨low', .attached hc', hlow⟩

end Conn

/-- When `Close` comes after the writer's initialisation and the fds are not those
of the standard streams, no sequence of operations dereferences nil, and once
`Close` has returned no fd of the connection is open, whatever comes later. -/
theorem lifecycle_safe {c : Conn} (hr : Reach step (fun c a => a.prepared c) {} c) :
    c.panicked = false ∧ (c.closed = true → c.fds = []) := by
  have hc : Stage c [] := hr.invariant (I := (Stage · [])) (.new rfl rfl) fun _ _ _ hc hg hs => by
    obtain ⟨hready, hlow⟩ := Label.ready_of_prepared hg
    obtain ⟨low', hc', he⟩ := hc.step hready hs
    exact he hlow ▸ hc'
  cases hc with
  | new h0 _ =>
    subst h0
    exact ⟨rfl, nofun⟩
  | failed hp _ _ hcl => exact ⟨hp, fun h => by simp [hcl] at h⟩
  | attached h =>
    obtain ⟨lr, lw, hs⟩ := h
    refine ⟨hs.panicked, fun h => ?_⟩
    obtain ⟨rfl, rfl, -⟩ := hs.closed h
    exact hs.fds.eq_nil

def secondTry : List Label :=
  [.init (.ok 7) true (.err .enxio), .write (.err .enxio) .whole, .write (.ok 8) .short, .deliver 3,
    .read 2, .close, .tryInitWriter (.ok 9), .write (.ok 9) .whole, .read 2, .close]

theorem lifecycle_safe_secondTry :
    ∃ c, Reach step (fun c a => a.prepared c) {} c ∧ c.closed = true ∧ c.panicked = false ∧
      c.fds = [] := by
  have hrun : ∃ c, runs (guarded step fun c a => a.prepared c) {} secondTry = some c ∧
      c.closed = true := ⟨_, rfl, rfl⟩
  obtain ⟨c, hc, hcl⟩ := hrun
  have hr := Reach.of_runs hc
  exact ⟨c, hr, hcl, (lifecycle_safe hr).1, (lifecycle_safe hr).2 hcl⟩

/-- `Close` after an `init` whose writer met `ENXIO` dereferences the writer's nil
operator; and an fd of the standard streams stays open. -/
theorem lifecycle_blank_writer :
    (∃ c, Reach step (fun _ _ => True) {} c ∧ c.panicked = true) ∧
      ∃ c, Reach step (fun _ _ => True) {} c ∧ c.closed = true ∧ c.fds = [2] := by
  have hpanic : ∃ c, runs (guarded step fun _ _ => true) {}
      [.init (.ok 7) true (.err .enxio), .close] = some c ∧ c.panicked = true := ⟨_, rfl, rfl⟩
  have hopen : ∃ c, runs (guarded step fun _ _ => true) {}
      [.init (.ok 2) true (.ok 7), .close] = some c ∧ c.closed = true ∧ c.fds = [2] :=
    ⟨_, rfl, rfl, rfl⟩
  obtain ⟨c, hc, hp⟩ := hpanic
  obtain ⟨c', hc', hcl, hf⟩ := hopen
  exact ⟨⟨c, (Reach.of_runs hc).mono fun _ _ _ _ => trivial, hp⟩,
    c', (Reach.of_runs hc').mono fun _ _ _ _ => trivial, hcl, hf⟩

end Netpoll.FifoConnection
