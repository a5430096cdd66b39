import Netpoll.Connection.Close

namespace Netpoll.Connection

open Netpoll.Lib.Threads Netpoll.Lib.Transition

variable {h : Handlers} {onRequest : Bool} {s s' : System} {a : Label}

def Pc.tasking : Pc → Bool
  | .task .. | .onConnect _ | .connActive _ | .connHelp _ | .connDisc _ | .connUnlock ..
  | .start _ | .first _ | .loop _ | .test .. | .more _ | .unlock _ | .recheck _ | .relock _
  | .relen _ | .restart _ => true
  | _ => false

def Pc.willServe : Pc → Bool
  | .reqLoad _ | .reqState _ | .reqLock _ => true
  | p => p.tasking

def Pc.serving : Pc → Bool
  | .first _ | .more _ => true
  | _ => false

theorem Pc.holds_cases {p : Pc} (hp : p.holds) : p.tasking ∨ p.closed ∨ p.panicking := by
  cases p <;> simp_all [Pc.holds, Pc.tasking, Pc.closed, Pc.panicking]

theorem Pc.willServe_of_tasking {p : Pc} (hp : p.tasking) : p.willServe := by
  cases p <;> first | rfl | cases hp

theorem closed_of_calm (hr : Reach (step h) (fun _ a => a.calm) (init onRequest) s) (i : Nat) :
    (s.pc i).closed → s.shared.closing ≠ .none := by
  induction hr generalizing i with
  | refl => simp [init, Pc.closed]
  | tail hr _ hs ih => exact closed_step hs (recoverActive_of_calm hr _) ih i

theorem next_traversals {c : Conn} {k j : Nat} {p : Pc} {m : Move Conn Pc}
    (hn : next h c k j p = some m) : m.shared.traversals = c.traversals ∨ p.closed := by
  cases p
  all_goals
    simp only [next] at hn
    (try split_ifs at hn) <;> cases hn
  all_goals simp [Pc.closed]

theorem closing_of_traversals (hr : Reach (step h) (fun _ a => a.calm) (init onRequest) s) :
    s.shared.traversals = 1 → s.shared.closing ≠ .none := by
  induction hr with
  | refl => simp [init]
  | @tail s a s' hr _ hs ih =>
    intro ht
    refine (step_later hs).closing ?_
    cases a with
    | run k j =>
      obtain ⟨m, hn, hsh, -⟩ := run_pc hs
      obtain he | hc := next_traversals hn
      · exact ih (by rwa [hsh, he] at ht)
      · exact closed_of_calm hr k hc
    | _ => exact ih ((unmoved_of_not_run hs (by simp)).traversals ▸ ht)

theorem owner_tasking (hr : Reach (step h) (fun _ a => a.calm) (init onRequest) s)
    (hc : s.shared.closing = .none) {o : Nat} (ho : s.shared.processing = some o) :
    (s.pc o).tasking ∧ (s.pc o).holds := by
  obtain hh | ht := (locked_of_calm hr).owner o ho
  · refine ⟨?_, hh⟩
    obtain h1 | h2 | h3 := Pc.holds_cases hh
    · exact h1
    · exact absurd hc (closed_of_calm hr o h2)
    · simp [not_panicking hr o] at h3
  · exact absurd hc (closing_of_traversals hr ht)

def Pc.lacksRequest : Pc → Bool
  | .connProcess req | .task _ req | .onConnect req | .connActive req | .connHelp req
  | .connDisc req | .connUnlock _ req | .start req | .first req | .loop req | .test _ req
  | .more req | .unlock req | .recheck req | .relock req | .relen req | .restart req => !req
  | _ => false

theorem Pc.lacksRequest_of_entry {p : Pc} (hp : p.entry) : p.lacksRequest = false := by
  cases p <;> first | rfl | cases hp

theorem next_lacksRequest {c : Conn} {k j : Nat} {p : Pc} {m : Move Conn Pc}
    (hn : next h c k j p = some m) (hc : c.onRequest = true) (hp : p.lacksRequest = false) :
    m.pc.lacksRequest = false ∧ ∀ t, m.task = some t → t.lacksRequest = false := by
  cases p
  all_goals
    simp only [next, Pc.return] at hn
    (try split_ifs at hn) <;> cases hn
  all_goals first
    | exact ⟨hp, no_task⟩
    | exact ⟨rfl, no_task⟩
    | refine ⟨?_, by rintro t ⟨⟩ <;> simp_all [Pc.lacksRequest]⟩
      simp_all [Pc.lacksRequest]

theorem not_lacksRequest (hr : Reach (step h) (fun _ a => a.installed) (init true) s) (i : Nat) :
    (s.pc i).lacksRequest = false := by
  induction hr generalizing i with
  | refl => rfl
  | tail hr ha hs ih =>
    refine facts_step (F := fun _ p => p.lacksRequest = false) hs (fun _ hp => hp) ?_ ?_ ?_ ih i
    · exact fun k p c hb => Pc.lacksRequest_of_entry hb.entry
    · exact fun _ _ => rfl
    · exact fun k j m _ hn => next_lacksRequest hn (dueMet_of_installed hr).2 (ih k)

def Pc.unconnected : Pc → Bool
  | .connNone | .discSet | .discRunFree => true
  | _ => false

def Pc.opening : Pc → Bool
  | .acceptActive | .connLoad | .connLock | .connReq | .connProcess _ | .task true _ => true
  | _ => false

theorem Pc.opening_of_entry {p : Pc} (hp : p.entry) :
    p.unconnected = false ∧ (p.opening → p = .acceptActive) := by
  cases p <;> simp_all [Pc.entry, Pc.unconnected, Pc.opening]

theorem next_unconnected {c : Conn} {k j : Nat} {p : Pc} {m : Move Conn Pc}
    (hC : h.onConnect = true) (hn : next h c k j p = some m) (hp : p.unconnected = false) :
    m.pc.unconnected = false ∧ ∀ t, m.task = some t → t.unconnected = false := by
  cases p
  all_goals
    simp only [next, Pc.return] at hn
    (try split_ifs at hn) <;> cases hn
  all_goals first
    | exact ⟨rfl, no_task⟩
    | simp_all [Pc.unconnected]

theorem next_opening {c : Conn} {k j : Nat} {p : Pc} {m : Move Conn Pc}
    (hn : next h c k j p = some m) (hp : p.unconnected = false) :
    m.shared.accepted = c.accepted ∧
      (m.shared.state = c.state ∨ c.state ≠ .none ∨ p.opening) ∧
      (m.pc.opening → p.opening ∧ m.shared.state = c.state) ∧
      ∀ t, m.task = some t → t.opening →
        p.opening ∧ m.pc.opening = false ∧ m.shared.state = c.state := by
  cases p
  case task conn _ =>
    cases conn <;> simp only [next] at hn <;> split_ifs at hn <;> cases hn <;>
      simp_all [Pc.opening]
  all_goals
    simp only [next, Pc.return] at hn
    (try split_ifs at hn) <;> cases hn
  all_goals first
    | exact ⟨rfl, .inl rfl, fun h => ⟨h, rfl⟩, no_task⟩
    | refine ⟨?_, ?_, ?_, by rintro t ⟨⟩ <;> simp_all [Pc.opening]⟩ <;>
        simp_all [Pc.opening, Pc.unconnected]

structure Opening (s : System) : Prop where
  connected : ∀ i, (s.pc i).unconnected = false
  unique : s.Unique Pc.opening
  state : ∀ i, (s.pc i).opening → s.shared.state = .none
  before : s.shared.accepted = false → s.shared.state = .none ∧ ∀ i, (s.pc i).opening = false

theorem Opening.state_of_ne {c : Conn} {i k : Nat} (ho : Opening s)
    (hst : c.state = s.shared.state ∨ s.shared.state ≠ .none ∨ (s.pc k).opening)
    (hik : i ≠ k) (hi : (s.pc i).opening) : c.state = .none := by
  obtain he | hne | hk := hst
  · exact he.trans (ho.state i hi)
  · exact absurd (ho.state i hi) hne
  · exact absurd (ho.unique i k hi hk) hik

theorem Opening.step (ho : Opening s) (hC : h.onConnect = true) (hs : step h s a = some s') :
    Opening s' := by
  have hun : ∀ i, (s'.pc i).unconnected = false := by
    refine facts_step (F := fun _ p => p.unconnected = false) hs (fun _ hp => hp) ?_ ?_ ?_
      ho.connected
    · exact fun k p c hb => (Pc.opening_of_entry hb.entry).1
    · exact fun _ _ => rfl
    · exact fun k j m _ hn => next_unconnected hC hn (ho.connected k)
  cases step_cases hs with
  | @begins k p c hb =>
    have hacc := (Pc.opening_of_entry hb.entry).2
    have hnew : p.opening → s.shared.accepted = false := by
      intro hp
      obtain ⟨-, -, hf, -⟩ | ⟨hne, -⟩ := hb.accept
      · exact hf
      · exact absurd (hacc hp) hne
    refine ⟨hun, ?_, fun i hi => ?_, fun hf => ?_⟩
    · by_cases hp : p.opening
      · exact State.Unique.enter_first (ho.before (hnew hp)).2
      · exact ho.unique.enter (fun h => absurd h hp)
    · rcases eq_or_ne i k with rfl | hik
      · exact hb.state.trans (ho.before (hnew (by simpa using hi))).1
      · exact hb.state.trans (ho.state i (by simpa [hik] using hi))
    · obtain ⟨-, -, -, ht⟩ | ⟨hne, he⟩ := hb.accept
      · simp [ht] at hf
      obtain ⟨h1, h2⟩ := ho.before (he ▸ hf)
      refine ⟨hb.state.trans h1, fun i => ?_⟩
      rcases eq_or_ne i k with rfl | hik
      · simpa using fun hp => hne (hacc hp)
      · simpa [hik] using h2 i
  | consume => exact ⟨hun, ho.unique, ho.state, ho.before⟩
  | @panic k =>
    refine ⟨hun, ho.unique.enter (by simp [Pc.opening]), fun i hi => ?_, fun hf => ?_⟩
    · rcases eq_or_ne i k with rfl | hik
      · simp [Pc.opening] at hi
      · exact ho.state i (by simpa [hik] using hi)
    · refine ⟨(ho.before hf).1, fun i => ?_⟩
      rcases eq_or_ne i k with rfl | hik
      · simp [Pc.opening]
      · simpa [hik] using (ho.before hf).2 i
  | @move k j c p _ hn =>
    obtain ⟨hacc, hst, hpc, -⟩ := next_opening hn (ho.connected k)
    refine ⟨hun, ho.unique.enter fun hp => (hpc hp).1, fun i hi => ?_, fun hf => ?_⟩
    · rcases eq_or_ne i k with rfl | hik
      · obtain ⟨hp, he⟩ := hpc (by simpa using hi)
        exact he.trans (ho.state i hp)
      · exact ho.state_of_ne hst hik (by simpa [hik] using hi)
    · obtain ⟨h1, h2⟩ := ho.before (hacc ▸ hf)
      refine ⟨by simpa [h1, h2 k] using hst, fun i => ?_⟩
      rcases eq_or_ne i k with rfl | hik
      · simpa [h2 i] using hpc
      · simpa [hik] using h2 i
  | @spawn k j c p t _ hn _ hjk hj =>
    obtain ⟨hacc, hst, hpc, htask⟩ := next_opening hn (ho.connected k)
    have htk := htask t rfl
    refine ⟨hun, ho.unique.spawn (fun hp => (hpc hp).1) (fun ht => ⟨(htk ht).1, (htk ht).2.1⟩),
      fun i hi => ?_, fun hf => ?_⟩
    · rcases eq_or_ne i j with rfl | hij
      · obtain ⟨hp, -, he⟩ := htk (by simpa using hi)
        exact he.trans (ho.state k hp)
      · rcases eq_or_ne i k with rfl | hik
        · obtain ⟨hp, he⟩ := hpc (by simpa [hij] using hi)
          exact he.trans (ho.state i hp)
        · exact ho.state_of_ne hst hik (by simpa [hij, hik] using hi)
    · obtain ⟨h1, h2⟩ := ho.before (hacc ▸ hf)
      refine ⟨by simpa [h1, h2 k] using hst, fun i => ?_⟩
      rcases eq_or_ne i j with rfl | hij
      · simpa [h2 k] using htk
      · rcases eq_or_ne i k with rfl | hik
        · simpa [hij, h2 i] using hpc
        · simpa [hij, hik] using h2 i

theorem opening_of_reach {P : System → Label → Prop} (hC : h.onConnect = true)
    (hr : Reach (step h) P (init onRequest) s) : Opening s := by
  refine hr.invariant ?_ (fun _ _ _ ho _ hs => ho.step hC hs)
  constructor <;> simp [init, State.Unique, Pc.opening, Pc.unconnected]

def Pc.connects : Pc → Bool
  | .onConnect _ => true
  | _ => false

def Pc.pastConnect : Pc → Bool
  | .task conn _ => !conn
  | .onConnect _ => false
  | p => p.tasking

def Pc.begun : Pc → Bool
  | .reqLock _ | .onConnect _ => true
  | _ => false

structure Connected (s : System) : Prop where
  started : s.shared.state ≠ .none → s.shared.connected = true ∨ ∃ i, (s.pc i).connects
  past : ∀ i, (s.pc i).pastConnect → s.shared.connected = true
  begun : ∀ i, (s.pc i).begun → s.shared.state ≠ .none
  state : s.shared.connected = true → s.shared.state ≠ .none

theorem Pc.not_past_of_entry {p : Pc} (hp : p.entry) : p.pastConnect = false ∧ p.begun = false := by
  cases p <;> first | exact ⟨rfl, rfl⟩ | cases hp

theorem next_past {c : Conn} {k j : Nat} {p : Pc} {m : Move Conn Pc} (hC : h.onConnect = true)
    (hn : next h c k j p = some m) (hopen : p.opening → c.state = .none)
    (hfree : c.processing = none → c.state ≠ .none → c.connected = true)
    (hpast : p.pastConnect → c.connected = true) (hbegun : p.begun → c.state ≠ .none) :
    ((m.pc.pastConnect → m.shared.connected = true) ∧ (m.pc.begun → m.shared.state ≠ .none)) ∧
      ∀ t, m.task = some t →
        (t.pastConnect → m.shared.connected = true) ∧ (t.begun → m.shared.state ≠ .none) := by
  cases p
  case task conn _ =>
    cases conn <;> simp only [next] at hn <;> split_ifs at hn <;> cases hn <;>
      simp_all [Pc.opening, Pc.pastConnect, Pc.begun, Pc.tasking]
  all_goals
    simp only [next, Pc.return] at hn
    (try split_ifs at hn) <;> cases hn
  all_goals first
    | exact ⟨⟨hpast, hbegun⟩, no_task⟩
    | refine ⟨?_, by rintro t ⟨⟩ <;> simp_all [Pc.pastConnect, Pc.begun]⟩
      simp_all [Pc.pastConnect, Pc.begun, Pc.tasking]

theorem next_started {c : Conn} {k j : Nat} {p : Pc} {m : Move Conn Pc}
    (hn : next h c k j p = some m) (hp : p.unconnected = false) :
    (c.state = .none → m.shared.state ≠ .none → m.pc.connects) ∧
      (p.connects → m.shared.connected = true) ∧
      (m.shared.connected = true → c.connected = true ∨ p.begun) := by
  cases p
  all_goals
    simp only [next, Pc.return] at hn
    (try split_ifs at hn) <;> cases hn
  all_goals simp_all [Pc.connects, Pc.begun, Pc.unconnected]

theorem Connected.of_lock (hc : Connected s) (hl : Locked s) (hf : s.shared.processing = none)
    (hst : s.shared.state ≠ .none) : s.shared.connected = true := by
  obtain hd | ⟨i, hi⟩ := hc.started hst
  · exact hd
  · have hfree := hl.owned.all_free hf i
    cases hp : s.pc i <;> simp_all [Pc.connects, Pc.holds]

theorem Connected.step (hc : Connected s) (hl : Locked s) (ho : Opening s)
    (hC : h.onConnect = true) (ha : a.calm) (hs : step h s a = some s') : Connected s' := by
  have hpast : ∀ i, ((s'.pc i).pastConnect → s'.shared.connected = true) ∧
      ((s'.pc i).begun → s'.shared.state ≠ .none) := by
    refine facts_step (F := fun c p => (p.pastConnect → c.connected = true) ∧
      (p.begun → c.state ≠ .none)) hs ?_ ?_ ?_ ?_ (fun i => ⟨hc.past i, hc.begun i⟩)
    · exact fun hl hp => ⟨fun h => hl.connected (hp.1 h), fun h => hl.state (hp.2 h)⟩
    · intro k p c hb
      simp [Pc.not_past_of_entry hb.entry]
    · simp [Pc.pastConnect, Pc.begun, Pc.tasking]
    · exact fun k j m _ hn =>
        next_past hC hn (ho.state k) (hc.of_lock hl) (hc.past k) (hc.begun k)
  have hlater := step_later hs
  refine ⟨fun hst => ?_, fun i => (hpast i).1, fun i => (hpast i).2, fun hcon => ?_⟩
  · by_cases hold : s.shared.state = .none
    · -- the state leaves `connStateNone` only where `OnConnect` begins
      cases a with
      | run k j =>
        obtain ⟨m, hn, hsh, hpc, -⟩ := run_pc hs
        exact .inr ⟨k, hpc ▸ (next_started hn (ho.connected k)).1 hold (hsh ▸ hst)⟩
      | _ => exact absurd ((unmoved_of_not_run hs (by simp)).state.trans hold) hst
    · obtain hd | ⟨i, hi⟩ := hc.started hold
      · exact .inl (hlater.connected hd)
      obtain hw | rfl | ⟨j, m, -, hn, hsh, -⟩ := witness_step hs rfl hi
      · exact .inr hw
      · simp [Label.calm] at ha
      · exact .inl (hsh ▸ (next_started hn (ho.connected i)).2.1 hi)
  · refine hlater.state ?_
    cases a with
    | run k j =>
      obtain ⟨m, hn, hsh, -⟩ := run_pc hs
      obtain hd | hb := (next_started hn (ho.connected k)).2.2 (hsh ▸ hcon)
      · exact hc.state hd
      · exact hc.begun k hb
    | _ => exact hc.state ((unmoved_of_not_run hs (by simp)).connected ▸ hcon)

theorem connected_of_calm (hC : h.onConnect = true)
    (hr : Reach (step h) (fun _ a => a.calm) (init onRequest) s) : Connected s := by
  induction hr with
  | refl => constructor <;> simp [init, Pc.pastConnect, Pc.begun, Pc.tasking]
  | tail hr ha hs ih =>
    exact ih.step (locked_of_calm hr)
      (opening_of_reach hC hr) hC ha hs

def Served (h : Handlers) (s : System) : Prop :=
  s.shared.closing = .none → 0 < s.shared.length →
    h.onConnect = true ∧ s.shared.connected = false ∨ ∃ i, (s.pc i).willServe

theorem next_willServe {c : Conn} {k j : Nat} {p : Pc} {m : Move Conn Pc}
    (hn : next h c k j p = some m) (hp : p.willServe) (hreq : c.onRequest = true)
    (hlack : p.lacksRequest = false) (hclosed : p.closed → c.closing ≠ .none)
    (hc : c.closing = .none) (hlen : 0 < c.length) :
    m.pc.willServe ∨ (∃ t, m.task = some t ∧ t.willServe) ∨
      h.onConnect = true ∧ c.state = .none ∨ c.processing.isSome ∧ p.holds = false := by
  cases p <;> try cases hp
  all_goals
    simp only [next, Pc.return] at hn
    (try split_ifs at hn) <;> cases hn
  all_goals first
    | exact .inl rfl
    | exact .inr (.inl ⟨_, rfl, rfl⟩)
    | simp_all [Pc.willServe, Pc.tasking, Pc.lacksRequest, Pc.closed, Pc.holds]

theorem next_unserved {c : Conn} {k j : Nat} {p : Pc} {m : Move Conn Pc}
    (hn : next h c k j p = some m) :
    (c.length = 0 → 0 < m.shared.length → m.pc.willServe) ∧
      (c.connected = false → m.shared.connected = true → m.pc.willServe) := by
  cases p
  all_goals
    simp only [next, Pc.return] at hn
    (try split_ifs at hn) <;> cases hn
  all_goals first
    | exact ⟨fun h h' => absurd h (Nat.ne_of_gt h'),
        fun h h' => absurd (h.symm.trans h') Bool.false_ne_true⟩
    | simp_all [Pc.willServe, Pc.tasking]
  all_goals omega

theorem Served.step (hv : Served h s) (hr : Reach (step h) (fun _ a => a.installed) (init true) s)
    (ha : a.installed) (hs : step h s a = some s') : Served h s' := by
  intro hc' hlen'
  have hcalm := calm_of_installed hr
  have hc : s.shared.closing = .none := by
    by_contra hne
    exact (step_later hs).closing hne hc'
  by_cases hlen : 0 < s.shared.length
  · obtain ⟨hC, hd⟩ | ⟨i, hi⟩ := hv hc hlen
    · by_cases hd' : s'.shared.connected = false
      · exact .inl ⟨hC, hd'⟩
      · right
        cases a with
        | run k j =>
          obtain ⟨m, hn, hsh, hpc, -⟩ := run_pc hs
          exact ⟨k, hpc ▸ (next_unserved hn).2 hd (by simpa [hsh] using hd')⟩
        | _ => exact absurd ((unmoved_of_not_run hs (by simp)).connected.trans hd) hd'
    · obtain hw | rfl | ⟨j, m, rfl, hn, hsh, hout, htask⟩ := witness_step hs rfl hi
      · exact .inr hw
      · simp [Label.installed] at ha
      obtain hw | ⟨t, ht, hw⟩ | ⟨hC, hst⟩ | ⟨hsome, hfree⟩ := next_willServe hn hi
        (dueMet_of_installed hr).2 (not_lacksRequest hr i) (closed_of_calm hcalm i) hc hlen
      · simp [hw] at hout
      · simp [htask t ht] at hw
      · -- `OnConnect` has not begun, and its task will look
        refine .inl ⟨hC, ?_⟩
        have hcon := connected_of_calm hC hcalm
        by_contra hd
        obtain hd | hb := (next_started hn ((opening_of_reach hC hcalm).connected i)).2.2
          (by simpa [hsh] using hd)
        · exact hcon.state hd hst
        · exact hcon.begun i hb hst
      · obtain ⟨o, ho⟩ := Option.isSome_iff_exists.mp hsome
        obtain ⟨ht, hh⟩ := owner_tasking hcalm hc ho
        have hio : i ≠ o := by
          rintro rfl
          simp [hfree] at hh
        exact .inr ⟨o, by simpa [pc_stays hs (Pc.not_idle_of_holds hh) (by simp [hio]) (by simp)]
          using Pc.willServe_of_tasking ht⟩
  · right
    cases a with
    | run k j =>
      obtain ⟨m, hn, hsh, hpc, -⟩ := run_pc hs
      exact ⟨k, hpc ▸ (next_unserved hn).1 (by omega) (hsh ▸ hlen')⟩
    | _ =>
      have := (unmoved_of_not_run hs (by simp)).length
      omega

theorem served_of_installed (hr : Reach (step h) (fun _ a => a.installed) (init true) s) :
    Served h s := by
  induction hr with
  | refl => simp [Served, init]
  | tail hr ha hs ih => exact ih.step hr ha hs

/-- `OnConnect`, `OnRequest` and the close callbacks run one at a time and in
this order, and no data stays in the input buffer of an active connection once
the poller is outside `onRequest` and no task is left. -/
theorem callbacks_serialised (h : Handlers) (onRequest : Bool) {s : System}
    (hr : Reach (step h) (fun _ a => a.installed) (init onRequest) s) :
    (∀ i k, (s.pc i).handling ∨ (s.pc i).traversing → (s.pc k).handling ∨ (s.pc k).traversing →
      i = k) ∧
    (∀ i, (s.pc i).serving → (h.onConnect = true → s.shared.connected = true) ∧
      s.shared.traversals = 0) ∧
    (s.shared.closing = .none → onRequest = true →
      (h.onConnect = true → s.shared.connected = true) → (∀ i, (s.pc i).willServe = false) →
      s.shared.length = 0) := by
  have hl := locked_of_installed hr
  refine ⟨fun i k hi hk => ?_, fun i hi => ⟨fun hC => ?_, ?_⟩, fun hc hreq hcon hno => ?_⟩
  · have hholds : ∀ i, (s.pc i).handling ∨ (s.pc i).traversing → (s.pc i).holds := fun i hi =>
      hi.elim (fun h => (Pc.holds_of_handling h).1) Pc.holds_of_traversing
    exact hl.owned.unique i k (hholds i hi) (hholds k hk)
  · have hpast := (connected_of_calm hC (calm_of_installed hr)).past i
    cases hp : s.pc i <;> simp_all [Pc.serving, Pc.pastConnect, Pc.tasking]
  · refine hl.before i ?_ ?_ <;> cases hp : s.pc i <;>
      simp_all [Pc.serving, Pc.holds, Pc.traversing]
  · subst hreq
    by_contra hlen
    obtain ⟨hC, hd⟩ | ⟨i, hi⟩ := served_of_installed hr hc (by omega)
    · simp [hcon hC] at hd
    · simp [hno i] at hi

theorem callbacks_serialised_connect :
    ∃ s, Reach (step ⟨true, false⟩) (fun _ a => a.installed) (init true) s ∧
      s.shared.connected = true ∧ (∀ i, s.pc i = .idle) ∧ s.shared.length = 0 := by
  have hrun : ∃ s, runs (guarded (step ⟨true, false⟩) fun _ a => a.installed) (init true)
      (List.flatten [[.readable 1], List.replicate 5 (.run 0 0), [.accept],
        List.replicate 5 (.run 1 3), List.replicate 5 (.run 3 0), [.consume 1],
        List.replicate 6 (.run 3 0)]) = some s ∧
      s.shared.connected = true ∧ s.shared.closing = .none ∧ ∀ i, s.pc i = .idle := by
    refine ⟨_, rfl, rfl, rfl, fun i => ?_⟩
    simp [State.enter, init]
  obtain ⟨s, hs, hcon, hc, hidle⟩ := hrun
  have hr := Reach.of_runs hs
  refine ⟨s, hr, hcon, hidle, (callbacks_serialised _ _ hr).2.2 hc rfl (fun _ => hcon) fun i => ?_⟩
  simp [hidle i, Pc.willServe, Pc.tasking]

end Netpoll.Connection
