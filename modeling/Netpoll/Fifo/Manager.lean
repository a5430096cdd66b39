import Mathlib.Data.List.AList
import Netpoll.Fifo.Lifecycle
import Netpoll.Lib.Registry

namespace Netpoll.FifoManager

open Netpoll.Lib.Registry Netpoll.Lib.Transition
open FifoConnection (Conn Open Sound Attached)

variable {Path : Type*}

/-- An attached `fifoConnection`, with the paths that its close callbacks delete. -/
structure Entry (Path : Type*) where
  conn : Conn
  readerPath : Path
  closeCallbacks : List Path
  traversals : Nat := 0
  deriving DecidableEq, Repr

def Entry.isOpen (f : Entry Path) : Bool := f.traversals == 0

structure Manager (Path : Type*) where
  connections : List (Entry Path)
  fifoConnections : AList fun _ : Path => Nat

inductive Label (Path : Type*)
  | attach (readerPath : Path) (r : Open) (registered : Bool) (w : Open)
  | closeConnection (id : Nat)
  | operate (id : Nat) (a : FifoConnection.Label)
  | close
  deriving DecidableEq, Repr

namespace Manager

def new : Manager Path := ⟨[], ∅⟩

def connection (m : Manager Path) (id : Nat) : Option (Entry Path) := m.connections[id]?

def operate (m : Manager Path) (id : Nat) (a : FifoConnection.Label) : Option (Manager Path) :=
  (m.connection id).bind fun f =>
    (if a = .close then none else FifoConnection.step f.conn a).map fun c =>
      { m with connections := m.connections.set id { f with conn := c } }

variable [DecidableEq Path]

def store (m : Manager Path) (readerPath : Path) (c : Conn) : Manager Path where
  connections := m.connections ++ [⟨c, readerPath, [readerPath], 0⟩]
  fifoConnections := m.fifoConnections.insert readerPath m.connections.length

def attachFifoConnection (m : Manager Path) (readerPath : Path) (r : Open) (registered : Bool)
    (w : Open) : Option (Manager Path) :=
  (FifoConnection.step {} (.init r registered w)).map fun c =>
    if c.attached then m.store readerPath c else m

def closeConnection (m : Manager Path) (id : Nat) : Option (Manager Path) :=
  (m.connection id).bind fun f =>
    (FifoConnection.step f.conn .close).map fun c =>
      { connections := m.connections.set id { f with conn := c, traversals := f.traversals + 1 }
        fifoConnections := f.closeCallbacks.foldl (fun r p => r.erase p) m.fifoConnections }

def panicked (m : Manager Path) (id : Nat) : Bool := (m.connection id).any (·.conn.panicked)

/-- The calls of `Range` on the entries that it finds; a panic ends them. -/
def closeAll (m : Manager Path) : List (Sigma fun _ : Path => Nat) → Manager Path
  | [] => m
  | e :: entries =>
    match m.closeConnection e.2 with
    | none => m
    | some m' => if m'.panicked e.2 then m' else m'.closeAll entries

def close (m : Manager Path) : Manager Path := m.closeAll m.fifoConnections.entries

def getFifoConnections (m : Manager Path) : List Nat := m.fifoConnections.entries.map Sigma.snd

def step (m : Manager Path) : Label Path → Option (Manager Path)
  | .attach p r registered w => m.attachFifoConnection p r registered w
  | .closeConnection id => m.closeConnection id
  | .operate id a => m.operate id a
  | .close => some m.close

end Manager

/-- No open connection has the reader path of the one that is attached, and a connection
is closed only once, after its writer has been initialised. -/
def Label.orderly [DecidableEq Path] (m : Manager Path) : Label Path → Bool
  | .attach p .. => m.connections.all fun f => f.readerPath != p || !f.isOpen
  | .closeConnection id => (m.connection id).any fun f => f.isOpen && f.conn.isWriterReady
  | .operate .. => true
  | .close => m.connections.all fun f => !f.isOpen || f.conn.isWriterReady

def Owns (m : Manager Path) (id : Nat) (p : Path) : Prop :=
  ∃ f, m.connection id = some f ∧ f.readerPath = p ∧ f.traversals = 0

structure Entry.Valid (f : Entry Path) : Prop where
  callbacks : f.closeCallbacks = [f.readerPath]
  once : f.traversals ≤ 1
  sound : ∃ low, Attached f.conn low

structure Replaced (m m' : Manager Path) (id : Nat) (f : Entry Path) : Prop where
  self : m'.connection id = some f
  other : ∀ {l}, l ≠ id → m'.connection l = m.connection l

theorem replaced_set {m : Manager Path} {id : Nat} {f : Entry Path}
    (hf : m.connection id = some f) (g : Entry Path) {r : AList fun _ : Path => Nat} :
    Replaced m ⟨m.connections.set id g, r⟩ id g where
  self := by
    have hlt := (List.getElem?_eq_some_iff.mp hf).1
    simp [Manager.connection, hlt]
  other hl := by simp [Manager.connection, hl.symm]

structure Registered [DecidableEq Path] (m : Manager Path) : Prop where
  valid : ∀ id f, m.connection id = some f → f.Valid
  lookup : Exact (m.fifoConnections.lookup ·) (Owns m)

namespace Registered

variable [DecidableEq Path] {m m' : Manager Path} {id : Nat} {f : Entry Path}

theorem new : Registered (Manager.new : Manager Path) where
  valid id f hf := by simp [Manager.new, Manager.connection] at hf
  lookup := by simp [Exact, Owns, Manager.new, Manager.connection]

section Store

variable {p : Path} {c : Conn}

theorem lookup_store : ((m.store p c).fifoConnections.lookup ·) =
    Function.update (m.fifoConnections.lookup ·) p (some m.connections.length) := by
  funext q
  rcases eq_or_ne q p with rfl | hq
  · simp [Manager.store]
  · simp [Manager.store, hq]

theorem connection_store (hf : (m.store p c).connection id = some f) :
    m.connection id = some f ∧ id ≠ m.connections.length ∨
      id = m.connections.length ∧ f = ⟨c, p, [p], 0⟩ := by
  rcases Nat.lt_trichotomy id m.connections.length with hlt | rfl | hgt
  · refine .inl ⟨?_, Nat.ne_of_lt hlt⟩
    simpa [Manager.connection, Manager.store, List.getElem?_append_left hlt] using hf
  · exact .inr ⟨rfl, by simpa [Manager.connection, Manager.store] using hf.symm⟩
  · have hnone : (m.store p c).connections[id]? = none := by
      apply List.getElem?_eq_none_iff.mpr
      simp only [Manager.store, List.length_append, List.length_singleton]
      omega
    simp [Manager.connection, hnone] at hf

theorem connection_stored (hf : m.connection id = some f) :
    (m.store p c).connection id = some f := by
  have hlt := (List.getElem?_eq_some_iff.mp hf).1
  simpa [Manager.connection, Manager.store, List.getElem?_append_left hlt] using hf

theorem store {low : List Nat} (hm : Registered m) (hc : Attached c low)
    (hp : ∀ id, ¬ Owns m id p) : Registered (m.store p c) := by
  refine ⟨fun id f hf => ?_, ?_⟩
  · rcases connection_store hf with ⟨hf, -⟩ | ⟨-, rfl⟩
    · exact hm.valid id f hf
    · exact ⟨rfl, Nat.zero_le 1, low, hc⟩
  · rw [lookup_store]
    refine hm.lookup.store ⟨⟨c, p, [p], 0⟩, by simp [Manager.connection, Manager.store], rfl, rfl⟩
      ?_ ?_ hp ?_
    · rintro q ⟨f, hf, rfl, -⟩
      rcases connection_store hf with ⟨-, hne⟩ | ⟨-, rfl⟩
      · exact absurd rfl hne
      · rfl
    · rintro q ⟨f, hf, -⟩
      simp [Manager.connection] at hf
    · refine fun id hid q => ⟨?_, ?_⟩
      · rintro ⟨f, hf, hq⟩
        rcases connection_store hf with ⟨hf, -⟩ | ⟨h, -⟩
        · exact ⟨f, hf, hq⟩
        · exact absurd h hid
      · rintro ⟨f, hf, hq⟩
        exact ⟨f, connection_stored hf, hq⟩

theorem attachFifoConnection {r w : Open} {registered : Bool} (hm : Registered m)
    (hp : ∀ id, ¬ Owns m id p) (h : m.attachFifoConnection p r registered w = some m') :
    Registered m' := by
  obtain ⟨c, hc, rfl⟩ := Option.map_eq_some_iff.mp h
  split
  · rename_i ha
    cases FifoConnection.Stage.of_init hc with
    | new h0 _ => simp [h0] at ha
    | failed _ hn _ _ => simp [hn] at ha
    | attached hs => exact hm.store hs hp
  · exact hm

end Store

theorem valid_of_replaced {g : Entry Path} (hr : Replaced m m' id g) (hg : g.Valid)
    (hm : Registered m) (l : Nat) (x : Entry Path) (hx : m'.connection l = some x) : x.Valid := by
  rcases eq_or_ne l id with rfl | hl
  · rw [hr.self] at hx
    cases hx
    exact hg
  · exact hm.valid l x (hr.other hl ▸ hx)

theorem operate {a : FifoConnection.Label} (hm : Registered m) (h : m.operate id a = some m') :
    Registered m' := by
  obtain ⟨f, hf, h⟩ := Option.bind_eq_some_iff.mp h
  obtain ⟨c, hc, rfl⟩ := Option.map_eq_some_iff.mp h
  obtain ⟨hne, hc⟩ := Option.ite_none_left_eq_some.mp hc
  have hv := hm.valid id f hf
  obtain ⟨low, lr, lw, hs⟩ := hv.sound
  have hready : a.ready f.conn = true := by cases a <;> first | rfl | exact absurd rfl hne
  obtain ⟨low', hs', -⟩ := hs.step hready hc
  have hr := replaced_set hf { f with conn := c } (r := m.fifoConnections)
  refine ⟨valid_of_replaced hr ⟨hv.callbacks, hv.once, low', hs'⟩ hm, hm.lookup.congr fun l p => ?_⟩
  rcases eq_or_ne l id with rfl | hl
  · simp [Owns, hr.self, hf]
  · simp only [Owns, hr.other hl]

section Close

structure Closed (m m' : Manager Path) (id : Nat) (f : Entry Path) (c : Conn) : Prop where
  returned : c.closed = true ∧ c.panicked = false
  replaced : Replaced m m' id { f with conn := c, traversals := 1 }
  erased : m'.fifoConnections = m.fifoConnections.erase f.readerPath
  registered : Registered m'

theorem closeConnection (hm : Registered m) (hf : m.connection id = some f)
    (h0 : f.traversals = 0) (hready : f.conn.isWriterReady = true) :
    ∃ m' c, m.closeConnection id = some m' ∧ Closed m m' id f c := by
  have hv := hm.valid id f hf
  obtain ⟨low, lr, lw, hs⟩ := hv.sound
  obtain ⟨c, hc, hs', hcl⟩ := hs.close hready
  have hstep : FifoConnection.step f.conn .close = some c := by
    simp [FifoConnection.step, FifoConnection.act, hs.panicked, hs.attached, hc]
  have hr := replaced_set hf { f with conn := c, traversals := 1 }
    (r := m.fifoConnections.erase f.readerPath)
  refine ⟨_, c, by simp [Manager.closeConnection, hf, hstep, hv.callbacks, h0], ⟨hcl, hs'.panicked⟩,
    hr, rfl, valid_of_replaced hr ⟨hv.callbacks, Nat.le_refl 1, low, _, _, hs'⟩ hm, ?_⟩
  have herase : ((m.fifoConnections.erase f.readerPath).lookup ·) =
      Function.update (m.fifoConnections.lookup ·) f.readerPath none := by
    funext q
    rcases eq_or_ne q f.readerPath with rfl | hq
    · simp
    · simp [AList.lookup_erase_ne hq, hq]
  show Exact ((m.fifoConnections.erase f.readerPath).lookup ·) _
  rw [herase]
  refine hm.lookup.delete ⟨f, hf, rfl, h0⟩ ?_ ?_ ?_
  · rintro p ⟨g, hg, -, h⟩
    cases hr.self.symm.trans hg
    cases h
  · rintro p ⟨g, hg, rfl, -⟩
    cases hf.symm.trans hg
    rfl
  · intro l hl p
    simp only [Owns, hr.other hl]

def Done (m : Manager Path) (id : Nat) : Prop :=
  ∃ g, m.connection id = some g ∧ g.traversals = 1 ∧ g.conn.closed = true

theorem closeAll {entries : List (Sigma fun _ : Path => Nat)} (hm : Registered m)
    (hready : ∀ l g, m.connection l = some g → g.traversals = 0 → g.conn.isWriterReady = true)
    (hkeys : (entries.map Sigma.fst).Nodup)
    (hin : ∀ e ∈ entries, m.fifoConnections.lookup e.1 = some e.2) :
    Registered (m.closeAll entries) ∧ (∀ e ∈ entries, Done (m.closeAll entries) e.2) ∧
      ∀ l, Done m l → Done (m.closeAll entries) l := by
  induction entries generalizing m with
  | nil => exact ⟨hm, nofun, fun l h => h⟩
  | cons e entries ih =>
    obtain ⟨p, id⟩ := e
    obtain ⟨f, hf, rfl, h0⟩ := (hm.lookup p id).mp (hin ⟨p, id⟩ (by simp))
    obtain ⟨hp, hkeys⟩ := List.nodup_cons.mp hkeys
    obtain ⟨m', c, hcl, hc⟩ := hm.closeConnection hf h0 (hready id f hf h0)
    have hreturned : m'.panicked id = false := by
      simp [Manager.panicked, hc.replaced.self, hc.returned.2]
    have heq : m.closeAll (⟨f.readerPath, id⟩ :: entries) = m'.closeAll entries := by
      simp [Manager.closeAll, hcl, hreturned]
    have hother {l} (hl : l ≠ id) := hc.replaced.other hl
    have hdone : Done m' id := ⟨_, hc.replaced.self, rfl, hc.returned.1⟩
    obtain ⟨hreg, hclosed, hkeep⟩ := ih hc.registered
      (fun l g hg hg0 => by
        rcases eq_or_ne l id with rfl | hl
        · cases hc.replaced.self.symm.trans hg
          cases hg0
        · exact hready l g (hother hl ▸ hg) hg0)
      hkeys fun e he => by
        have hne : e.1 ≠ f.readerPath := by
          intro h
          have hmem : e.1 ∈ entries.map Sigma.fst := List.mem_map_of_mem he
          exact hp (h ▸ hmem)
        rw [hc.erased, AList.lookup_erase_ne hne]
        exact hin e (List.mem_cons_of_mem _ he)
    rw [heq]
    refine ⟨hreg, fun e he => ?_, fun l hl => hkeep l ?_⟩
    · rcases List.mem_cons.mp he with rfl | he
      · exact hkeep id hdone
      · exact hclosed e he
    · rcases eq_or_ne l id with rfl | hne
      · exact hdone
      · simpa only [Done, hother hne] using hl

theorem close (hm : Registered m) (hready : Label.close.orderly m = true) :
    Registered m.close ∧ ∀ id p, Owns m id p → Done m.close id := by
  have hall := hm.closeAll
    (fun l g hg h0 => by
      have hg := List.all_eq_true.mp hready g (List.mem_of_getElem? hg)
      simpa [Entry.isOpen, h0] using hg)
    m.fifoConnections.nodupKeys fun e he => AList.mem_lookup_iff.mpr he
  refine ⟨hall.1, fun id p hid => ?_⟩
  exact hall.2.1 _ (AList.mem_lookup_iff.mp ((hm.lookup p id).mpr hid))

end Close

theorem step {a : Label Path} (hm : Registered m) (ha : a.orderly m = true)
    (h : m.step a = some m') : Registered m' := by
  cases a with
  | attach p r registered w =>
    refine hm.attachFifoConnection ?_ h
    rintro id ⟨f, hf, hp, h0⟩
    have hf' := List.all_eq_true.mp ha f (List.mem_of_getElem? hf)
    simp [hp, Entry.isOpen, h0] at hf'
  | closeConnection id =>
    cases hf : m.connection id with
    | none => simp [Label.orderly, hf] at ha
    | some f =>
      have hopen : f.traversals = 0 ∧ f.conn.isWriterReady = true := by
        simpa [Label.orderly, hf, Entry.isOpen] using ha
      obtain ⟨m₁, c, hcl, hc⟩ := hm.closeConnection hf hopen.1 hopen.2
      cases hcl.symm.trans h
      exact hc.registered
  | operate id a => exact hm.operate h
  | close =>
    cases h
    exact (hm.close ha).1

end Registered

/-- As long as open connections have distinct reader paths and a connection is closed once and
with an initialised writer, every open connection is found by `GetFifoConnections`, and closed by
a `Close` that finds the writers initialised; no connection runs its close callbacks twice. -/
theorem open_registered [DecidableEq Path] {m : Manager Path}
    (hr : Reach Manager.step (fun m a => a.orderly m) Manager.new m) (id : Nat) {f : Entry Path}
    (hf : m.connection id = some f) :
    f.traversals ≤ 1 ∧ (f.traversals = 0 → id ∈ m.getFifoConnections ∧
      (Label.close.orderly m = true →
        ∃ g, m.close.connection id = some g ∧ g.traversals = 1 ∧ g.conn.closed = true)) := by
  have hm : Registered m := hr.invariant .new fun _ _ _ hm ha h => hm.step ha h
  refine ⟨(hm.valid id f hf).once, fun h0 => ?_⟩
  have hid : Owns m id f.readerPath := ⟨f, hf, rfl, h0⟩
  have hmem := AList.mem_lookup_iff.mp ((hm.lookup f.readerPath id).mpr hid)
  exact ⟨List.mem_map_of_mem hmem, fun hready => (hm.close hready).2 id f.readerPath hid⟩

def reattached : List (Label Nat) :=
  [.attach 7 (.ok 11) true (.ok 12), .attach 8 (.ok 13) true (.ok 14), .closeConnection 0,
    .attach 9 (.ok 15) true (.err .other), .attach 7 (.ok 11) true (.err .enxio),
    .operate 2 (.write (.ok 16) .whole)]

theorem open_registered_reattached :
    ∃ m : Manager Nat, Reach Manager.step (fun m a => a.orderly m) Manager.new m ∧
      2 ∈ m.getFifoConnections ∧
        ∃ g, m.close.connection 2 = some g ∧ g.traversals = 1 ∧ g.conn.closed = true := by
  have hrun : ∃ m, runs (guarded Manager.step fun m a => a.orderly m) (Manager.new : Manager Nat)
      reattached = some m ∧ Label.close.orderly m = true ∧
      ∃ f, m.connection 2 = some f ∧ f.traversals = 0 := ⟨_, rfl, rfl, _, rfl, rfl⟩
  obtain ⟨m, hm, hready, f, hf, h0⟩ := hrun
  have hr := Reach.of_runs hm
  obtain ⟨hfound, hclosed⟩ := (open_registered hr 2 hf).2 h0
  exact ⟨m, hr, hfound, hclosed hready⟩

/-- Two connections are attached with one path and the first is closed: the second is open and
not registered, so that `Close` does not close it.  Closed a second time, a connection runs its
callbacks again.  `Close` panics at a connection whose writer met `ENXIO`, and leaves the next
one open. -/
theorem open_unregistered :
    (∃ m : Manager Nat, Reach Manager.step (fun _ _ => True) Manager.new m ∧
      m.getFifoConnections = [] ∧
      ∃ f, m.connection 1 = some f ∧ f.traversals = 0 ∧ m.close.connection 1 = some f) ∧
    (∃ m : Manager Nat, Reach Manager.step (fun _ _ => True) Manager.new m ∧
      ∃ f, m.connection 0 = some f ∧ f.traversals = 2) ∧
    ∃ m : Manager Nat, Reach Manager.step (fun _ _ => True) Manager.new m ∧
      m.getFifoConnections = [1, 0] ∧ m.close.panicked 1 = true ∧
      ∃ f, m.connection 0 = some f ∧ f.traversals = 0 ∧ m.close.connection 0 = some f := by
  have hlost : ∃ m, runs (guarded Manager.step fun _ _ => true) (Manager.new : Manager Nat)
      [.attach 7 (.ok 11) true (.ok 12), .attach 7 (.ok 13) true (.ok 14), .closeConnection 0] =
        some m ∧ m.getFifoConnections = [] ∧
      ∃ f, m.connection 1 = some f ∧ f.traversals = 0 ∧ m.close.connection 1 = some f :=
    ⟨_, rfl, rfl, _, rfl, rfl, rfl⟩
  have htwice : ∃ m, runs (guarded Manager.step fun _ _ => true) (Manager.new : Manager Nat)
      [.attach 7 (.ok 11) true (.ok 12), .closeConnection 0, .closeConnection 0] = some m ∧
      ∃ f, m.connection 0 = some f ∧ f.traversals = 2 := ⟨_, rfl, _, rfl, rfl⟩
  have hpanic : ∃ m, runs (guarded Manager.step fun _ _ => true) (Manager.new : Manager Nat)
      [.attach 7 (.ok 11) true (.ok 12), .attach 8 (.ok 13) true (.err .enxio)] = some m ∧
      m.getFifoConnections = [1, 0] ∧ m.close.panicked 1 = true ∧
      ∃ f, m.connection 0 = some f ∧ f.traversals = 0 ∧ m.close.connection 0 = some f :=
    ⟨_, rfl, rfl, rfl, _, rfl, rfl, rfl⟩
  obtain ⟨m, hm, hlost⟩ := hlost
  obtain ⟨e, he, htwice⟩ := htwice
  obtain ⟨n, hn, hpanic⟩ := hpanic
  exact ⟨⟨m, (Reach.of_runs hm).mono fun _ _ _ _ => trivial, hlost⟩,
    ⟨e, (Reach.of_runs he).mono fun _ _ _ _ => trivial, htwice⟩,
    n, (Reach.of_runs hn).mono fun _ _ _ _ => trivial, hpanic⟩

end Netpoll.FifoManager
