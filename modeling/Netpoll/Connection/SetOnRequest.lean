import Netpoll.Connection.Disconnect

namespace Netpoll.Connection

open Netpoll.Lib.Threads Netpoll.Lib.Transition

variable {h : Handlers} {onRequest : Bool} {s s' : System} {a : Label} {c : Conn} {k j : Nat}
  {p : Pc} {m : Move Conn Pc}

def Pc.serves (p : Pc) : Bool := p.tasking && !p.lacksRequest

def Pc.attends : Pc → Bool
  | .setLen | .reqLoad _ | .reqState _ | .reqLock _ => true
  | p => p.serves

/-- When `onRequest` goes away because of `OnConnect`, or because of a task, the
goroutine it leaves the data to has seen the handler; and no handler panics. -/
def Label.noticed (s : System) : Label → Bool
  | .panic _ => false
  | .run k _ =>
    match s.pc k with
    | .reqState _ =>
      s.shared.state ≠ .none || s.shared.connecting.all fun o => !(s.pc o).lacksRequest
    | .reqLock _ => s.shared.processing.all fun o => !(s.pc o).lacksRequest
    | _ => true
  | _ => true

theorem Label.calm_of_noticed (ha : a.noticed s) : a.calm := by
  cases a <;> simp_all [Label.noticed, Label.calm]

theorem Pc.not_serves_of_entry (hp : p.entry) : p.serves = false := by
  cases p <;> first | rfl | cases hp

def Pc.direct (p : Pc) : Prop := p.lacksRequest = false ∧ p ≠ .connLock ∧ p ≠ .connReq

theorem Pc.direct_of_entry (hp : p.entry) : p.direct := by
  cases p <;> simp_all [Pc.entry, Pc.direct, Pc.lacksRequest]

theorem next_direct (hC : h.onConnect = false) (hn : next h c k j p = some m) (hp : p.direct) :
    m.pc.direct ∧ ∀ t, m.task = some t → t.direct := by
  cases p
  all_goals
    simp only [next, Pc.return] at hn
    (try split_ifs at hn) <;> cases hn
  all_goals first
    | exact ⟨⟨rfl, Pc.noConfusion, Pc.noConfusion⟩, no_task⟩
    | refine ⟨?_, by rintro t ⟨⟩ <;> simp_all [Pc.direct, Pc.lacksRequest]⟩
      simp_all [Pc.direct, Pc.lacksRequest]

theorem direct_of_calm (hC : h.onConnect = false)
    (hr : Reach (step h) (fun _ a => a.calm) (init onRequest) s) (i : Nat) : (s.pc i).direct := by
  induction hr generalizing i with
  | refl => simp [init, Pc.direct, Pc.lacksRequest]
  | tail hr ha hs ih =>
    refine facts_step (F := fun _ p => p.direct) hs (fun _ hp => hp) ?_ ?_ ?_ ih i
    · exact fun k p c hb => Pc.direct_of_entry hb.entry
    · simp [Pc.direct, Pc.lacksRequest]
    · exact fun k j m _ hn => next_direct hC hn (ih k)

theorem next_serves (hn : next h c k j p = some m) (hp : p ≠ .restart false) :
    m.pc ≠ .restart false ∧ (m.pc.serves → p.serves) ∧
      (m.pc.lacksRequest → m.pc.holds → p.lacksRequest ∧ p.holds) ∧
      ∀ t, m.task = some t → t ≠ .restart false ∧ c.processing = none ∧
        (t.lacksRequest → p.opening ∧ p.serves = false) := by
  cases p
  all_goals
    simp only [next, Pc.return] at hn
    (try split_ifs at hn) <;> cases hn
  all_goals refine ⟨?_, ?_,
    ?_, by rintro t ⟨⟩ <;> simp_all [Pc.lacksRequest, Pc.opening, Pc.serves, Pc.tasking]⟩
  all_goals simp_all [Pc.serves, Pc.tasking, Pc.lacksRequest, Pc.holds]

structure Lone (s : System) : Prop where
  restart : ∀ i, s.pc i ≠ .restart false
  alone : ∀ i l, (s.pc i).serves → (s.pc l).lacksRequest → (s.pc l).holds = false

theorem Pc.tasking_cases (hp : p.tasking) : p.opening ∨ p.pastConnect ∨ p.begun := by
  cases p
  case task conn _ => cases conn <;> simp [Pc.opening, Pc.pastConnect]
  all_goals simp_all [Pc.tasking, Pc.pastConnect, Pc.begun]

theorem state_of_tasking {i : Nat} (hcon : Connected s) (hi : (s.pc i).tasking)
    (ho : (s.pc i).opening = false) : s.shared.state ≠ .none := by
  obtain hp | hp | hp := Pc.tasking_cases hi
  · simp [ho] at hp
  · exact hcon.state (hcon.past i hp)
  · exact hcon.begun i hp

theorem Lone.step (hn : Lone s) (hC : h.onConnect = true)
    (hr : Reach (step h) (fun _ a => a.calm) (init onRequest) s) (ha : a.calm)
    (hs : step h s a = some s') : Lone s' := by
  cases step_cases hs with
  | @begins k p c hb =>
    have hlack := Pc.lacksRequest_of_entry hb.entry
    have hserves := Pc.not_serves_of_entry hb.entry
    refine ⟨fun i => ?_, fun i l hi hl => ?_⟩
    · rcases eq_or_ne i k with rfl | hik
      · have he := hb.entry
        rintro hp
        simp only [State.enter_pc_self] at hp
        simp [hp, Pc.entry] at he
      · simpa [hik] using hn.restart i
    · have hik : i ≠ k := by
        rintro rfl
        simp [hserves] at hi
      have hlk : l ≠ k := by
        rintro rfl
        simp [hlack] at hl
      simpa [hlk] using hn.alone i l (by simpa [hik] using hi) (by simpa [hlk] using hl)
  | consume => exact ⟨hn.restart, hn.alone⟩
  | panic hp => simp [hp, Label.calm] at ha
  | @move k j c p _ hm =>
    obtain ⟨hre, hsv, hlk, -⟩ := next_serves hm (hn.restart k)
    refine ⟨fun i => ?_, fun i l hi hl => ?_⟩
    · rcases eq_or_ne i k with rfl | hik
      · simpa using hre
      · simpa [hik] using hn.restart i
    · have hi' : (s.pc i).serves := by
        rcases eq_or_ne i k with rfl | hik
        · exact hsv (by simpa using hi)
        · simpa [hik] using hi
      rcases eq_or_ne l k with rfl | hlk'
      · by_contra hh
        obtain ⟨h1, h2⟩ := hlk (by simpa using hl) (by simpa using hh)
        simp [hn.alone i l hi' h1] at h2
      · simpa [hlk'] using hn.alone i l hi' (by simpa [hlk'] using hl)
  | @spawn k j c p t _ hm _ hjk hj =>
    obtain ⟨hre, hsv, hlk, htask⟩ := next_serves hm (hn.restart k)
    obtain ⟨htre, hfree, htl⟩ := htask t rfl
    have hno := (locked_of_calm hr).owned.all_free hfree
    refine ⟨fun i => ?_, fun i l hi hl => ?_⟩
    · rcases eq_or_ne i j with rfl | hij
      · simpa using htre
      · rcases eq_or_ne i k with rfl | hik
        · simpa [hij] using hre
        · simpa [hij, hik] using hn.restart i
    · rcases eq_or_ne l j with rfl | hlj
      · obtain ⟨hopen, hks⟩ := htl (by simpa using hl)
        have hi' : (s.pc i).serves ∧ i ≠ k := by
          have hil : i ≠ l := by
            rintro rfl
            simp_all [Pc.serves]
          have hik : i ≠ k := by
            rintro rfl
            simp [hsv (by simpa [hil] using hi)] at hks
          exact ⟨by simpa [hil, hik] using hi, hik⟩
        have hO := opening_of_reach hC hr
        have hi0 : (s.pc i).opening = false := by
          by_contra h0
          exact hi'.2 (hO.unique i k (by simpa using h0) hopen)
        have ht : (s.pc i).tasking := by simp_all [Pc.serves]
        exact absurd (hO.state k hopen) (state_of_tasking (connected_of_calm hC hr) ht hi0)
      · rcases eq_or_ne l k with rfl | hlk'
        · by_contra hh
          have h2 := (hlk (by simpa [hlj] using hl) (by simpa [hlj] using hh)).2
          simp [hno l] at h2
        · simpa [hlj, hlk'] using hno l

theorem lone_of_calm (hr : Reach (step h) (fun _ a => a.calm) (init onRequest) s) : Lone s := by
  cases hC : h.onConnect with
  | false =>
    have hd := direct_of_calm hC hr
    refine ⟨fun i hi => ?_, fun i l _ hl => ?_⟩
    · simpa [hi, Pc.lacksRequest] using (hd i).1
    · simp [(hd l).1] at hl
  | true =>
    induction hr with
    | refl => constructor <;> simp [init, Pc.lacksRequest]
    | tail hr ha hs ih => exact ih.step hC hr ha hs

def Attended (h : Handlers) (s : System) : Prop :=
  s.shared.closing = .none → s.shared.onRequest = true → 0 < s.shared.length →
    (∃ i, (s.pc i).attends) ∨ h.onConnect = true ∧ s.shared.state = .none ∧
      ∀ i, (s.pc i).opening → (s.pc i).lacksRequest = false

theorem next_attends (hn : next h c k j p = some m) (hp : p.attends) (hreq : c.onRequest = true)
    (hclosed : p.closed → c.closing ≠ .none) (hc : c.closing = .none) (hlen : 0 < c.length) :
    m.pc.attends ∨ (∃ t, m.task = some t ∧ t.attends) ∨
      (∃ poll, p = .reqState poll ∧ h.onConnect = true ∧ c.state = .none ∧ m.shared = c ∧
        m.pc.opening = false ∧ m.task = none) ∨
      c.processing.isSome ∧ p.holds = false ∧ ((∃ poll, p = .reqLock poll) ∨ p.serves) := by
  cases p <;> try cases hp
  all_goals
    simp only [next, Pc.return] at hn
    (try split_ifs at hn) <;> cases hn
  all_goals first
    | exact .inl hp
    | exact .inl rfl
    | exact .inr (.inl ⟨_, rfl, rfl⟩)
    | simp_all [Pc.attends, Pc.serves, Pc.tasking, Pc.lacksRequest, Pc.closed, Pc.holds, Pc.opening]

theorem next_first (hn : next h c k j p = some m) (h0 : c.length = 0) (hlen : 0 < m.shared.length) :
    m.pc.attends := by
  cases p
  all_goals
    simp only [next, Pc.return] at hn
    (try split_ifs at hn) <;> cases hn
  all_goals simp_all [Pc.attends]

theorem Pc.attends_cases (hp : p.attends) : p = .setLen ∨ p.willServe := by
  cases p <;> simp_all [Pc.attends, Pc.serves, Pc.willServe, Pc.tasking]

theorem Pc.attends_of_serves (hp : p.serves) : p.attends := by
  cases p <;> simp_all [Pc.attends, Pc.serves, Pc.tasking]

theorem Pc.holdsConnecting_of_opening (hp : p.opening) (hl : p.lacksRequest) :
    p.holdsConnecting := by
  cases p
  case task conn _ => cases conn <;> simp_all [Pc.opening, Pc.holdsConnecting]
  all_goals simp_all [Pc.opening, Pc.lacksRequest, Pc.holdsConnecting]

theorem Attended.opening_step (hC : h.onConnect = true)
    (hr : Reach (step h) (fun _ a => a.calm) (init onRequest) s) (hs : step h s a = some s')
    (hreq : s.shared.onRequest = true) (hst : s.shared.state = .none)
    (hopen : ∀ i, (s.pc i).opening → (s.pc i).lacksRequest = false) :
    (∃ i, (s'.pc i).attends) ∨ h.onConnect = true ∧ s'.shared.state = .none ∧
      ∀ i, (s'.pc i).opening → (s'.pc i).lacksRequest = false := by
  have hO := opening_of_reach hC hr
  by_cases hst' : s'.shared.state = .none
  · refine .inr ⟨hC, hst', ?_⟩
    refine facts_step (F := fun _ p => p.opening → p.lacksRequest = false) hs (fun _ hp => hp)
      (fun k p c hb _ => Pc.lacksRequest_of_entry hb.entry) (fun _ _ _ => rfl) ?_ hopen
    intro k j m _ hn
    obtain ⟨-, -, hpc, htask⟩ := next_opening hn (hO.connected k)
    refine ⟨fun hm => ?_, fun t ht hto => ?_⟩
    · exact (next_lacksRequest hn hreq (hopen k (hpc hm).1)).1
    · exact (next_lacksRequest hn hreq (hopen k (htask t ht hto).1)).2 t ht
  · left
    cases a with
    | run k j =>
      obtain ⟨m, hn, hsh, hpc, -⟩ := run_pc hs
      obtain ⟨-, hch, -⟩ := next_opening hn (hO.connected k)
      have hk : (s.pc k).opening := by
        obtain he | hne | hk := hch
        · exact absurd (hsh ▸ he.trans hst) hst'
        · exact absurd hst hne
        · exact hk
      have hcon := (next_started hn (hO.connected k)).1 hst (hsh ▸ hst')
      have hlack := (next_lacksRequest hn hreq (hopen k hk)).1
      refine ⟨k, hpc ▸ Pc.attends_of_serves ?_⟩
      cases hm : m.pc <;> simp_all [Pc.connects, Pc.serves, Pc.tasking]
    | _ => exact absurd ((unmoved_of_not_run hs (by simp)).state.trans hst) hst'

theorem Attended.step (hv : Attended h s)
    (hr : Reach (step h) (fun _ a => a.calm) (init onRequest) s) (ha : a.noticed s)
    (hs : step h s a = some s') : Attended h s' := by
  intro hc' hreq' hlen'
  have hc : s.shared.closing = .none := by
    by_contra hne
    exact (step_later hs).closing hne hc'
  by_cases hreq : s.shared.onRequest = true
  · by_cases hlen : 0 < s.shared.length
    · obtain ⟨i, hi⟩ | ⟨hC, hst, hopen⟩ := hv hc hreq hlen
      · obtain hw | rfl | ⟨j, m, rfl, hn, hsh, hout, htask⟩ := witness_step hs rfl hi
        · exact .inl hw
        · simp [Label.noticed] at ha
        obtain hw | ⟨t, ht, hw⟩ | ⟨poll, hp, hC, hst, hm, hpo, hnt⟩ | ⟨hsome, hfree, hwhy⟩ :=
          next_attends hn hi hreq (closed_of_calm hr i) hc hlen
        · simp [hw] at hout
        · simp [htask t ht] at hw
        · -- the goroutine that will call `OnConnect` has the handler, or will load it
          refine Attended.opening_step hC hr hs hreq hst fun l hl => ?_
          by_contra hlack
          have hown := (connecting_of_calm hC hr).holds l
            (Pc.holdsConnecting_of_opening hl (by simpa using hlack))
          simp [Label.noticed, hp, hst, hown] at ha
          simp [ha] at hlack
        · obtain ⟨o, ho⟩ := Option.isSome_iff_exists.mp hsome
          obtain ⟨ht, hh⟩ := owner_tasking hr hc ho
          have hio : i ≠ o := by
            rintro rfl
            simp [hfree] at hh
          have hlack : (s.pc o).lacksRequest = false := by
            obtain ⟨poll, hp⟩ | hserves := hwhy
            · simpa [Label.noticed, hp, ho] using ha
            · by_contra hl
              simp [(lone_of_calm hr).alone i o hserves (by simpa using hl)] at hh
          refine .inl ⟨o, ?_⟩
          rw [pc_stays hs (Pc.not_idle_of_holds hh) (by simp [hio]) (by simp)]
          exact Pc.attends_of_serves (by simp [Pc.serves, ht, hlack])
      · exact Attended.opening_step hC hr hs hreq hst hopen
    · left
      cases a with
      | run k j =>
        obtain ⟨m, hn, hsh, hpc, -⟩ := run_pc hs
        exact ⟨k, hpc ▸ next_first hn (by omega) (hsh ▸ hlen')⟩
      | _ =>
        have := (unmoved_of_not_run hs (by simp)).length
        omega
  · -- only `SetOnRequest` stores a handler, and it looks at the buffer then
    left
    cases a with
    | setOnRequest k =>
      simp only [step, call] at hs
      split at hs <;> cases hs
      exact ⟨k, by simp [Pc.attends]⟩
    | panic k => simp [Label.noticed] at ha
    | _ => exact absurd (step_onRequest rfl hs ▸ hreq') hreq

theorem attended_of_reach (hr : Reach (step h) (fun s a => a.noticed s) (init onRequest) s) :
    Attended h s := by
  induction hr with
  | refl => simp [Attended, init]
  | tail hr ha hs ih => exact ih.step (hr.mono fun _ _ _ ha => Label.calm_of_noticed ha) ha hs

/-- Once `SetOnRequest` has returned, `OnConnect` is over and nobody is inside
`onRequest` or a task, the input buffer of an open connection is empty. -/
theorem setOnRequest_serves (h : Handlers) (onRequest : Bool) {s : System}
    (hr : Reach (step h) (fun s a => a.noticed s) (init onRequest) s)
    (hc : s.shared.closing = .none) (hreq : s.shared.onRequest = true)
    (hcon : h.onConnect = true → s.shared.connected = true)
    (hquiet : ∀ i, s.pc i ≠ .setLen ∧ (s.pc i).willServe = false) : s.shared.length = 0 := by
  by_contra hlen
  obtain ⟨i, hi⟩ | ⟨hC, hst, -⟩ := attended_of_reach hr hc hreq (by omega)
  · obtain hp | hp := Pc.attends_cases hi
    · exact (hquiet i).1 hp
    · simp [(hquiet i).2] at hp
  · have hcalm := hr.mono fun _ _ _ ha => Label.calm_of_noticed ha
    exact (connected_of_calm hC hcalm).state (hcon hC) hst

theorem setOnRequest_serves_late :
    ∃ s, Reach (step ⟨true, false⟩) (fun s a => a.noticed s) (init false) s ∧
      s.shared.onRequest = true ∧ s.shared.connected = true ∧ (∀ i, s.pc i = .idle) ∧
      s.shared.length = 0 := by
  have hrun : ∃ s, runs (guarded (step ⟨true, false⟩) fun s a => a.noticed s) (init false)
      (List.flatten [[.accept], List.replicate 5 (.run 1 3), List.replicate 10 (.run 3 0),
        [.readable 1], List.replicate 4 (.run 0 0), [.setOnRequest 4], List.replicate 4 (.run 4 3),
        List.replicate 2 (.run 3 0), [.consume 1], List.replicate 6 (.run 3 0)]) = some s ∧
      s.shared.onRequest = true ∧ s.shared.connected = true ∧ s.shared.closing = .none ∧
      ∀ i, s.pc i = .idle := by
    refine ⟨_, rfl, rfl, rfl, rfl, fun i => ?_⟩
    match i with
    | 0 | 1 | 2 | 3 | 4 => rfl
    | i + 5 => rfl
  obtain ⟨s, hs, hreq, hcon, hc, hidle⟩ := hrun
  have hr := Reach.of_runs hs
  refine ⟨s, hr, hreq, hcon, hidle, setOnRequest_serves _ _ hr hc hreq (fun _ => hcon) fun i => ?_⟩
  simp [hidle i, Pc.willServe, Pc.tasking]

/-- `SetOnRequest` inside `OnConnect`, with a byte in the buffer: the task has
been started without a handler and keeps `onRequest` out. -/
theorem setOnRequest_strands :
    ∃ s, Reach (step ⟨true, false⟩) (fun _ _ => True) (init false) s ∧
      s.shared.closing = .none ∧ s.shared.onRequest = true ∧ s.shared.connected = true ∧
      (∀ i, s.pc i = .idle) ∧ s.shared.length = 1 := by
  have hrun : ∃ s, runs (guarded (step ⟨true, false⟩) fun _ _ => true) (init false)
      (List.flatten [[.readable 1], List.replicate 4 (.run 0 0), [.accept],
        List.replicate 5 (.run 1 3), [.run 3 0, .setOnRequest 4], List.replicate 4 (.run 4 5),
        List.replicate 9 (.run 3 0)]) = some s ∧
      s.shared.closing = .none ∧ s.shared.onRequest = true ∧ s.shared.connected = true ∧
      (∀ i, s.pc i = .idle) ∧ s.shared.length = 1 := by
    refine ⟨_, rfl, rfl, rfl, rfl, fun i => ?_, rfl⟩
    match i with
    | 0 | 1 | 2 | 3 | 4 => rfl
    | i + 5 => rfl
  obtain ⟨s, hs, hend⟩ := hrun
  exact ⟨s, (Reach.of_runs hs).mono fun _ _ _ _ => trivial, hend⟩

end Netpoll.Connection
