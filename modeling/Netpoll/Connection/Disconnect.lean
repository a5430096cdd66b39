import Netpoll.Connection.Serve

namespace Netpoll.Connection

open Netpoll.Lib.Threads Netpoll.Lib.Transition

variable {h : Handlers} {onRequest : Bool} {s s' : System} {a : Label}

def Pc.holdsConnecting : Pc → Bool
  | .connReq | .connProcess _ | .task true _ | .onConnect _ | .connActive _ | .connHelp _
  | .connDisc _ | .connUnlock .. | .discCas | .discRun | .discUnlock => true
  | _ => false

inductive ConnectingMove (c : Conn) (k j : Nat) (p : Pc) : Move Conn Pc → Prop
  | keep {c' p'} : c'.connecting = c.connecting → p'.holdsConnecting = p.holdsConnecting →
      (p.holdsConnecting ∨ c'.connected = c.connected) → ConnectingMove c k j p ⟨c', p', none⟩
  | start {c' p' t} : c'.connecting = c.connecting → p.holdsConnecting = false →
      p'.holdsConnecting = false → c'.connected = c.connected → t.holdsConnecting = false →
      ConnectingMove c k j p ⟨c', p', some t⟩
  | acquire {c' p'} : c.connecting = none → c'.connecting = some k → p'.holdsConnecting →
      ConnectingMove c k j p ⟨c', p', none⟩
  | pass {c' p' t} : p.holdsConnecting → c'.connecting = some j → p'.holdsConnecting = false →
      t.holdsConnecting → ConnectingMove c k j p ⟨c', p', some t⟩
  | release {c' p'} : p.holdsConnecting → c'.connecting = none → p'.holdsConnecting = false →
      ConnectingMove c k j p ⟨c', p', none⟩
  | abandon {c' p'} : p.opening → p.holdsConnecting → c'.connected = c.connected →
      p'.holdsConnecting = false → ConnectingMove c k j p ⟨c', p', none⟩

theorem next_connecting {c : Conn} {k j : Nat} {p : Pc} {m : Move Conn Pc}
    (hn : next h c k j p = some m) (hopen : p.opening → c.state = .none) :
    ConnectingMove c k j p m := by
  cases p
  case task conn _ =>
    cases conn <;> simp only [next] at hn <;> split_ifs at hn <;> cases hn
    all_goals first
      | exact .keep rfl rfl (.inr rfl)
      | simp_all [Pc.opening]
  all_goals
    simp only [next, Pc.return] at hn
    (try split_ifs at hn) <;> cases hn
  all_goals first
    | exact .keep rfl rfl (.inr rfl)
    | exact .keep rfl rfl (.inl rfl)
    | exact .start rfl rfl rfl rfl rfl
    | exact .acquire (by simp_all) rfl rfl
    | exact .pass rfl rfl rfl rfl
    | exact .release rfl rfl rfl
    | exact .abandon rfl rfl rfl rfl

theorem Pc.not_connecting_of_entry {p : Pc} (hp : p.entry) : p.holdsConnecting = false := by
  cases p <;> first | rfl | cases hp

structure Connecting (s : System) : Prop where
  holds : s.Owned Conn.connecting Pc.holdsConnecting
  owner : ∀ m, s.shared.connecting = some m →
    (s.pc m).holdsConnecting ∨ s.shared.connected = false

namespace Connecting

variable {c : Conn} {k : Nat} {p : Pc}

theorem keep (hk : Connecting s) (hc : c.connecting = s.shared.connecting)
    (hp : p.holdsConnecting = (s.pc k).holdsConnecting)
    (hd : (s.pc k).holdsConnecting ∨ c.connected = s.shared.connected) :
    Connecting (s.enter c k p) where
  holds := hk.holds.keep hc (by simp [hp])
  owner m hm := by
    replace hm : s.shared.connecting = some m := hc.symm.trans hm
    rcases eq_or_ne m k with rfl | hmk
    · obtain hh | he := hd
      · simp [hp, hh]
      · simpa [hp, he] using hk.owner m hm
    · obtain hh | he := hd
      · exact absurd (Option.some.inj (hm.symm.trans (hk.holds k hh))) hmk
      · simpa [hmk, he] using hk.owner m hm

theorem first (hno : ∀ i, (s.pc i).holdsConnecting = false) (hc : c.connecting = some k)
    (hp : p.holdsConnecting) : Connecting (s.enter c k p) where
  holds := .first hno hc
  owner m hm := by
    obtain rfl : k = m := by simpa [hc] using hm
    simp [hp]

theorem leave (hk : Connecting s) (hh : (s.pc k).holdsConnecting) (hp : p.holdsConnecting = false)
    (hc : c.connecting = none ∨ c.connected = false) : Connecting (s.enter c k p) where
  holds i hi := by simp [hk.holds.leave hh hp] at hi
  owner m hm := by
    obtain h0 | hd := hc
    · simp [h0] at hm
    · exact .inr hd

theorem step (hk : Connecting s) (ho : Opening s) (hd : Connected s) (ha : a.calm)
    (hs : step h s a = some s') : Connecting s' := by
  have hopen : ∀ k, (s.pc k).opening → s.shared.connected = false := by
    intro k hop
    by_contra hne
    exact hd.state (by simpa using hne) (ho.state k hop)
  cases step_cases hs with
  | begins hb =>
    refine hk.keep hb.connecting ?_ (.inr hb.connected)
    rw [Pc.not_connecting_of_entry hb.entry, hb.idle]
    rfl
  | consume => exact ⟨hk.holds, hk.owner⟩
  | panic hp =>
    subst hp
    simp [Label.calm] at ha
  | @move k j c p _ hn =>
    cases next_connecting hn (ho.state k) with
    | keep hc hp hd => exact hk.keep hc hp hd
    | acquire hf hc hp => exact first (hk.holds.all_free hf) hc hp
    | release hh hc hp => exact hk.leave hh hp (.inl hc)
    | abandon hop hh he hp => exact hk.leave hh hp (.inr (he.trans (hopen k hop)))
  | @spawn k j c p t _ hn _ hjk hj =>
    cases next_connecting hn (ho.state k) with
    | start hc hh hp he ht =>
      have hk' : Connecting (s.enter c k p) := hk.keep hc (hp.trans hh.symm) (.inr he)
      refine hk'.keep rfl ?_ (.inr rfl)
      rw [ht, State.enter_pc_of_ne _ _ _ hjk, hj]
      rfl
    | pass hh hc hp ht => exact first (hk.holds.leave hh hp) hc ht

end Connecting

theorem connecting_of_calm (hC : h.onConnect = true)
    (hr : Reach (step h) (fun _ a => a.calm) (init onRequest) s) : Connecting s := by
  induction hr with
  | refl => constructor <;> simp [init, State.Owned, Pc.holdsConnecting]
  | tail hr ha hs ih => exact ih.step (opening_of_reach hC hr) (connected_of_calm hC hr) ha hs

def Pc.leaving : Pc → Bool
  | .onConnect _ | .connActive _ | .connHelp _ | .discLock | .discCas => true
  | _ => false

def Pc.settled : Pc → Bool
  | .connDisc _ | .connUnlock false _ | .discRun | .discUnlock => true
  | _ => false

theorem Pc.not_leaving_of_entry {p : Pc} (hp : p.entry) :
    p.leaving = false ∧ p.settled = false := by
  cases p <;> first | exact ⟨rfl, rfl⟩ | cases hp

theorem ConnState.eq_disconnected {q : ConnState} (h0 : q ≠ .none) (h1 : q ≠ .connected) :
    q = .disconnected := by
  cases q <;> simp_all

theorem next_settled {c : Conn} {k j : Nat} {p : Pc} {m : Move Conn Pc}
    (hn : next h c k j p = some m) (hleave : p.leaving → c.state ≠ .none)
    (hset : p.settled → c.state = .disconnected) :
    ((m.pc.leaving → m.shared.state ≠ .none) ∧
      (m.pc.settled → m.shared.state = .disconnected)) ∧
      ∀ t, m.task = some t → (t.leaving → m.shared.state ≠ .none) ∧
        (t.settled → m.shared.state = .disconnected) := by
  cases p
  all_goals
    simp only [next, Pc.return] at hn
    (try split_ifs at hn) <;> cases hn
  all_goals first
    | exact ⟨⟨hleave, hset⟩, no_task⟩
    | refine ⟨?_, by rintro t ⟨⟩ <;> simp_all [Pc.leaving, Pc.settled]⟩
      simp_all [Pc.leaving, Pc.settled]
  all_goals exact ConnState.eq_disconnected hleave ‹_›

theorem next_disconnects {c : Conn} {k j : Nat} {p : Pc} {m : Move Conn Pc}
    (hD : h.onDisconnect = true) (hn : next h c k j p = some m) (hp : p.unconnected = false) :
    (c.disconnects = (if c.state = .disconnected then 1 else 0) →
      m.shared.disconnects = if m.shared.state = .disconnected then 1 else 0) ∧
      (m.shared.state = .disconnected →
        c.state = .disconnected ∨ p.pastConnect ∨ p = .discCas) := by
  cases p
  all_goals
    simp only [next] at hn
    (try split_ifs at hn) <;> cases hn
  all_goals simp_all [Pc.unconnected, Pc.pastConnect, Pc.tasking]

structure Disconnected (s : System) : Prop where
  leaving : ∀ i, (s.pc i).leaving → s.shared.state ≠ .none
  settled : ∀ i, (s.pc i).settled → s.shared.state = .disconnected
  count : s.shared.disconnects = if s.shared.state = .disconnected then 1 else 0
  connected : s.shared.state = .disconnected → s.shared.connected = true

theorem connected_of_discCas (hk : Connecting s) (hc : Connected s) (hd : Disconnected s)
    {k : Nat} (hp : s.pc k = .discCas) : s.shared.connected = true := by
  have hleave : (s.pc k).leaving := by simp [hp, Pc.leaving]
  have hhold : (s.pc k).holdsConnecting := by simp [hp, Pc.holdsConnecting]
  obtain hcon | ⟨i, hi⟩ := hc.started (hd.leaving k hleave)
  · exact hcon
  · have hik : i = k := by
      refine hk.holds.unique i k ?_ hhold
      cases hq : s.pc i <;> simp_all [Pc.connects, Pc.holdsConnecting]
    subst hik
    simp [hp, Pc.connects] at hi

theorem Disconnected.step (hd : Disconnected s) (ho : Opening s) (hc : Connected s)
    (hk : Connecting s) (hD : h.onDisconnect = true) (hs : step h s a = some s') :
    Disconnected s' := by
  have hpc : ∀ i, ((s'.pc i).leaving → s'.shared.state ≠ .none) ∧
      ((s'.pc i).settled → s'.shared.state = .disconnected) := by
    refine facts_step (F := fun c p => (p.leaving → c.state ≠ .none) ∧
      (p.settled → c.state = .disconnected)) hs ?_ ?_ ?_ ?_ (fun i => ⟨hd.leaving i, hd.settled i⟩)
    · exact fun hl hp => ⟨fun h => hl.state (hp.1 h), fun h => hl.disconnected (hp.2 h)⟩
    · intro k p c hb
      simp [Pc.not_leaving_of_entry hb.entry]
    · simp [Pc.leaving, Pc.settled]
    · exact fun k j m _ hn => next_settled hn (hd.leaving k) (hd.settled k)
  refine ⟨fun i => (hpc i).1, fun i => (hpc i).2, ?_, fun hst => ?_⟩
  · cases a with
    | run k j =>
      obtain ⟨m, hn, hsh, -⟩ := run_pc hs
      rw [hsh]
      exact (next_disconnects hD hn (ho.connected k)).1 hd.count
    | _ =>
      have hu := unmoved_of_not_run hs (by simp)
      rw [hu.disconnects, hu.state]
      exact hd.count
  · refine (step_later hs).connected ?_
    cases a with
    | run k j =>
      obtain ⟨m, hn, hsh, -⟩ := run_pc hs
      obtain hold | hpast | hcas := (next_disconnects hD hn (ho.connected k)).2 (hsh ▸ hst)
      · exact hd.connected hold
      · exact hc.past k hpast
      · exact connected_of_discCas hk hc hd hcas
    | _ => exact hd.connected ((unmoved_of_not_run hs (by simp)).state ▸ hst)

theorem disconnected_of_calm (hC : h.onConnect = true) (hD : h.onDisconnect = true)
    (hr : Reach (step h) (fun _ a => a.calm) (init onRequest) s) : Disconnected s := by
  induction hr with
  | refl => constructor <;> simp [init, Pc.leaving, Pc.settled]
  | tail hr _ hs ih =>
    exact ih.step (opening_of_reach hC hr) (connected_of_calm hC hr) (connecting_of_calm hC hr)
      hD hs

/-- No handler panics and only the poller closes. -/
def Label.unclosed : Label → Bool
  | .panic _ | .close _ | .detach _ => false
  | _ => true

theorem Label.calm_of_unclosed {a : Label} (ha : a.unclosed) : a.calm := by
  cases a <;> first | rfl | cases ha

def Pc.byUser : Pc → Bool
  | .closeBy | .force | .panicUnlock | .panicActive => true
  | _ => false

theorem next_byUser {c : Conn} {k j : Nat} {p : Pc} {m : Move Conn Pc}
    (hn : next h c k j p = some m) (hp : p.byUser = false) :
    m.pc.byUser = false ∧ ∀ t, m.task = some t → t.byUser = false := by
  cases p
  all_goals
    simp only [next, Pc.return] at hn
    (try split_ifs at hn) <;> cases hn
  all_goals refine ⟨?_, by rintro t ⟨⟩ <;> simp_all [Pc.byUser]⟩
  all_goals simp_all [Pc.byUser]

theorem byUser_of_begins {k : Nat} {p : Pc} {c : Conn} (hb : Begins s a k p c) (ha : a.unclosed) :
    p.byUser = false := by
  have he := hb.entry
  have hc : p ≠ .closeBy := by
    intro hp
    obtain rfl | rfl := hb.close hp <;> simp [Label.unclosed] at ha
  clear hb
  cases p <;> simp_all [Pc.entry, Pc.byUser]

def Pc.unlocking : Pc → Bool
  | .connUnlock active _ => active
  | _ => false

/-- `onHup` does not try the `connecting` lock between the task's test of
`IsActive` and its unlock. -/
def Label.noOverlap (s : System) : Label → Bool
  | .run k _ => s.pc k != .discLock || !s.shared.connecting.any fun m => (s.pc m).unlocking
  | _ => true

def Pc.willDisconnect : Pc → Bool
  | .onConnect _ | .connActive _ | .connHelp _ | .discLoad | .discState | .discLock
  | .discCas => true
  | _ => false

def DisconnectMet (s : System) : Prop :=
  s.shared.closing ≠ .none → s.shared.connected = true →
    s.shared.state = .disconnected ∨ ∃ i, (s.pc i).willDisconnect

theorem next_willDisconnect {c : Conn} {k j : Nat} {p : Pc} {m : Move Conn Pc}
    (hC : h.onConnect = true) (hD : h.onDisconnect = true) (hn : next h c k j p = some m)
    (hp : p.willDisconnect) (hc : c.closing ≠ .none) (hst : c.state ≠ .none) :
    m.pc.willDisconnect ∨ m.shared.state = .disconnected ∨
      p = .discLock ∧ c.connecting.isSome := by
  cases p
  all_goals
    simp only [next] at hn
    (try split_ifs at hn) <;> cases hn
  all_goals simp_all [Pc.willDisconnect, Conn.isActive]
  all_goals exact ConnState.eq_disconnected hst ‹_›

theorem next_unmet {c : Conn} {k j : Nat} {p : Pc} {m : Move Conn Pc}
    (hn : next h c k j p = some m) (hp : p.byUser = false)
    (hc : m.shared.closing ≠ .none) (hd : m.shared.connected = true) :
    c.closing ≠ .none ∧ c.connected = true ∨ m.pc.willDisconnect := by
  cases p
  all_goals
    simp only [next] at hn
    (try split_ifs at hn) <;> cases hn
  all_goals simp_all [Pc.willDisconnect, Pc.byUser]

theorem Pc.holdsConnecting_cases {p : Pc} (hp : p.holdsConnecting) :
    p.opening ∨ p.willDisconnect ∨ p.settled ∨ p.unlocking := by
  cases p
  case task conn _ => cases conn <;> simp_all [Pc.holdsConnecting, Pc.opening]
  case connUnlock active _ => cases active <;> simp [Pc.settled, Pc.unlocking]
  all_goals simp_all [Pc.holdsConnecting, Pc.opening, Pc.willDisconnect, Pc.settled]

theorem Pc.not_idle_of_willDisconnect {p : Pc} (hp : p.willDisconnect) : p ≠ .idle := by
  rintro rfl
  simp [Pc.willDisconnect] at hp

theorem not_byUser (hr : Reach (step h) (fun _ a => a.unclosed) (init onRequest) s) (i : Nat) :
    (s.pc i).byUser = false := by
  refine hr.invariant (I := fun s => ∀ i, (s.pc i).byUser = false) (fun _ => rfl) ?_ i
  intro s a s' hi ha hs
  refine facts_step (F := fun _ p => p.byUser = false) hs (fun _ hp => hp) ?_ ?_ ?_ hi
  · exact fun k p c hb => byUser_of_begins hb ha
  · rintro k rfl
    simp [Label.unclosed] at ha
  · exact fun k j m _ hn => next_byUser hn (hi k)

theorem DisconnectMet.step (hm : DisconnectMet s) (hC : h.onConnect = true)
    (hD : h.onDisconnect = true)
    (hr : Reach (step h) (fun _ a => a.unclosed) (init onRequest) s) (ha : a.unclosed)
    (hov : a.noOverlap s) (hs : step h s a = some s') : DisconnectMet s' := by
  intro hc' hd'
  have hcalm := hr.mono fun _ _ _ ha => Label.calm_of_unclosed ha
  have hcon := connected_of_calm hC hcalm
  have hlater := step_later hs
  by_cases hold : s.shared.closing ≠ .none ∧ s.shared.connected = true
  · obtain hst | ⟨i, hi⟩ := hm hold.1 hold.2
    · exact .inl (hlater.disconnected hst)
    obtain hw | rfl | ⟨j, m, rfl, hn, hsh, hout, -⟩ := witness_step hs rfl hi
    · exact .inr hw
    · simp [Label.unclosed] at ha
    obtain hw | hst | ⟨hp, hsome⟩ :=
      next_willDisconnect hC hD hn hi hold.1 (hcon.state hold.2)
    · simp [hw] at hout
    · exact .inl (hsh ▸ hst)
    -- `onHup` finds the lock taken: its owner has to run `OnDisconnect`
    obtain ⟨o, ho⟩ := Option.isSome_iff_exists.mp hsome
    have hh := ((connecting_of_calm hC hcalm).owner o ho).resolve_right (by simp [hold.2])
    obtain hop | hw | hset | hun := Pc.holdsConnecting_cases hh
    · exact absurd ((opening_of_reach hC hcalm).state o hop) (hcon.state hold.2)
    · have hio : i ≠ o := by
        rintro rfl
        simp [hp, Pc.holdsConnecting] at hh
      exact .inr ⟨o, by rwa [pc_stays hs (Pc.not_idle_of_willDisconnect hw) (by simp [hio])
        (by simp)]⟩
    · exact .inl (hlater.disconnected ((disconnected_of_calm hC hD hcalm).settled o hset))
    · simp [Label.noOverlap, hp, ho, hun] at hov
  · right
    cases a with
    | run k j =>
      obtain ⟨m, hn, hsh, hpc, -⟩ := run_pc hs
      rw [hsh] at hc' hd'
      exact ⟨k, hpc ▸ (next_unmet hn (not_byUser hr k) hc' hd').resolve_left hold⟩
    | _ =>
      refine absurd ⟨?_, ?_⟩ hold
      · exact (unmoved_of_not_run hs (by simp)).closing ▸ hc'
      · exact (unmoved_of_not_run hs (by simp)).connected ▸ hd'

theorem disconnectMet_of_reach (hC : h.onConnect = true) (hD : h.onDisconnect = true)
    (hr : Reach (step h) (fun s a => a.unclosed && a.noOverlap s) (init onRequest) s) :
    DisconnectMet s := by
  induction hr with
  | refl => simp [DisconnectMet, init]
  | tail hr ha hs ih =>
    obtain ⟨hu, hov⟩ := Bool.and_eq_true_iff.mp ha
    refine ih.step hC hD (hr.mono fun _ _ _ ha => ?_) hu hov hs
    exact (Bool.and_eq_true_iff.mp ha).1

/-- `OnDisconnect` runs at most once and only after `OnConnect`; where `onHup`
never meets the task between its test and its unlock, it has run when nothing is
left to do. -/
theorem onDisconnect_once (onRequest : Bool) {s : System}
    (hr : Reach (step ⟨true, true⟩) (fun _ a => a.unclosed) (init onRequest) s) :
    s.shared.disconnects ≤ 1 ∧ (0 < s.shared.disconnects → s.shared.connected = true) ∧
      (Reach (step ⟨true, true⟩) (fun s a => a.unclosed && a.noOverlap s) (init onRequest) s →
        (∀ i, s.pc i = .idle) → s.shared.connected = true → s.shared.closing = .poller →
        s.shared.disconnects = 1) := by
  have hcalm := hr.mono fun _ _ _ ha => Label.calm_of_unclosed ha
  have hd := disconnected_of_calm rfl rfl hcalm
  have hcount := hd.count
  refine ⟨?_, fun hpos => hd.connected ?_, fun hov hidle hcon hc => ?_⟩
  · split at hcount <;> omega
  · by_contra hst
    simp [hst] at hcount
    omega
  · obtain hst | ⟨i, hi⟩ := disconnectMet_of_reach rfl rfl hov (by simp [hc]) hcon
    · simpa [hst] using hcount
    · simp [hidle i, Pc.willDisconnect] at hi

theorem onDisconnect_once_hup :
    ∃ s, Reach (step ⟨true, true⟩) (fun _ a => a.unclosed) (init false) s ∧
      s.shared.connected = true ∧ s.shared.closing = .poller ∧ s.shared.disconnects = 1 := by
  have hrun : ∃ s, runs (guarded (step ⟨true, true⟩) fun s a => a.unclosed && a.noOverlap s)
      (init false)
      (List.flatten [[.accept], List.replicate 5 (.run 1 3), List.replicate 10 (.run 3 0),
        [.hup, .run 0 0, .run 0 0, .onhups], List.replicate 16 (.run 2 0)]) = some s ∧
      (∀ i, s.pc i = .idle) ∧ s.shared.connected = true ∧ s.shared.closing = .poller := by
    refine ⟨_, rfl, fun i => ?_, rfl, rfl⟩
    simp [State.enter, init]
  obtain ⟨s, hs, hidle, hcon, hc⟩ := hrun
  have hr := Reach.of_runs hs
  have hr' := hr.mono fun _ _ _ ha => (Bool.and_eq_true_iff.mp ha).1
  exact ⟨s, hr', hcon, hc, (onDisconnect_once _ hr').2.2 hr hidle hcon hc⟩

/-- `onHup` tries the lock just after the task's test: neither of the two runs
`OnDisconnect`. -/
theorem onDisconnect_lost :
    ¬ ∀ (onRequest : Bool) (s : System),
      Reach (step ⟨true, true⟩) (fun _ a => a.unclosed) (init onRequest) s →
      s.shared.disconnects ≤ 1 ∧ (0 < s.shared.disconnects → s.shared.connected = true) ∧
        ((∀ i, s.pc i = .idle) → s.shared.connected = true → s.shared.closing = .poller →
          s.shared.disconnects = 1) := by
  intro hall
  have hrun : ∃ s, runs (guarded (step ⟨true, true⟩) fun _ a => a.unclosed) (init false)
      (List.flatten [[.accept], List.replicate 5 (.run 1 3), List.replicate 3 (.run 3 0),
        [.hup, .run 0 0, .run 0 0, .onhups], List.replicate 6 (.run 2 0),
        List.replicate 11 (.run 3 0)]) = some s ∧
      (∀ i, s.pc i = .idle) ∧ s.shared.connected = true ∧ s.shared.closing = .poller ∧
      s.shared.disconnects = 0 := by
    refine ⟨_, rfl, fun i => ?_, rfl, rfl, rfl⟩
    simp only [State.enter, init, Function.update_apply]
    grind
  obtain ⟨s, hs, hidle, hcon, hc, hd⟩ := hrun
  have := (hall _ s (Reach.of_runs hs)).2.2 hidle hcon hc
  omega

end Netpoll.Connection
