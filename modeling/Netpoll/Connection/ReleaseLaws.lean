import Netpoll.Connection.Release

namespace Netpoll.Release

open Netpoll.Lib.Threads Netpoll.Lib.Transition
open Netpoll.Poll (Cache Turn Exclusive Growing Placed OpState)

variable {opSize : Nat} {c c' : Cache} {k : Nat} {p p' : Poll.Pc} {s s' : Poll.System}

def states (c : Cache) (i : Nat) : OpState := (c.ops i).state

def grip : Poll.Pc → Option Nat
  | .regAdd _ op | .registered op | .detAdd op | .detCtl op | .detDel _ op | .detached op
  | .freeUnused op => some op
  | _ => none

def allocating : Poll.Pc → Bool
  | .allocLock | .allocTest | .allocGrow .. | .allocPop => true
  | _ => false

theorem op_of_grip {i : Nat} (h : grip p = some i) : p.op = some i := by
  cases p <;> first | exact h | cases h

theorem current_of_owner (h : p.polling = false) : p.current = none := by
  cases p <;> first | rfl | cases h

inductive StateMove (c : Cache) (p : Poll.Pc) (c' : Cache) (p' : Poll.Pc) : Prop
  | keep : states c' = states c → grip p = none ∨ grip p' = grip p → p'.current = p.current →
      StateMove c p c' p'
  | grow : states c' = Function.update (states c) c.cache.length .unused → grip p = none →
      p'.current = none → StateMove c p c' p'
  | inuse (i : Nat) : states c i ≠ .doing → states c' = Function.update (states c) i .inuse →
      grip p = none → grip p' = some i → p'.current = none → StateMove c p c' p'
  | unused (i : Nat) : states c i ≠ .doing → states c' = Function.update (states c) i .unused →
      grip p = some i → p'.current = none → StateMove c p c' p'
  | take (i : Nat) : states c i = .inuse → states c' = Function.update (states c) i .doing →
      grip p = none → p.current = none → p'.current = some i → StateMove c p c' p'
  | done (i : Nat) : p.current = some i → states c' = Function.update (states c) i .inuse →
      grip p = none → p'.current = none → StateMove c p c' p'

theorem states_update (i : Nat) {o : Poll.FDOperator} (h : c'.ops = Function.update c.ops i o) :
    states c' = Function.update (states c) i o.state := by
  funext j
  simp only [states, h, Function.update_apply]
  split <;> rfl

theorem states_set (i : Nat) (f : Poll.FDOperator → Poll.FDOperator) :
    states (c.set i f) = Function.update (states c) i (f (c.ops i)).state :=
  states_update i rfl

theorem states_same (i : Nat) {o : Poll.FDOperator} (h : c'.ops = Function.update c.ops i o)
    (ho : o.state = (c.ops i).state) : states c' = states c := by
  rw [states_update i h, ho]
  exact Function.update_eq_self i (states c)

theorem turn_states (ht : Turn opSize c k p c' p') : StateMove c p c' p' := by
  cases ht with
  | call he hc =>
    subst he
    cases hc <;> exact .keep rfl (by simp [grip]) rfl
  | access hn =>
    cases p
    all_goals
      simp only [Poll.next] at hn
      (try split at hn) <;> (try split at hn) <;> cases hn
    all_goals first
      | exact .keep rfl (.inl rfl) rfl
      | exact .keep rfl (.inr rfl) rfl
      | exact .keep (states_same _ rfl rfl) (.inl rfl) rfl
      | exact .keep (states_same _ rfl rfl) (.inr rfl) rfl
      | exact .grow (states_update (o := ⟨_, _, _, _, _, _⟩) _ rfl) rfl rfl
      | exact .unused _ (by simp_all [states]) (by simp_all [states]) rfl rfl
      | exact .unused _ (by simp_all [states]) (states_set _ _) rfl rfl
      | exact .inuse _ (by simp_all [states]) (states_set _ _) rfl rfl rfl
      | exact .take _ (by simp_all [states]) (states_set _ _) rfl rfl rfl
      | exact .done _ rfl (states_set _ _) rfl rfl

theorem turn_pop (ht : Turn opSize c k .allocPop c' p') :
    ∃ op, c.first = some op ∧ p' = .allocUnlock op := by
  cases ht with
  | call _ hc => cases hc
  | access hn =>
    simp only [Poll.next] at hn
    split at hn <;> cases hn
    exact ⟨_, ‹_›, rfl⟩

theorem turn_op (ht : Turn opSize c k p c' p') (hp : p ≠ .allocPop) {i : Nat}
    (hi : p'.op = some i) : p.op = some i := by
  cases ht.place with
  | keep _ _ _ _ _ h => exact h ▸ hi
  | pop => exact absurd rfl hp
  | grow | give | move => simp [Poll.Pc.op] at hi

theorem turn_allocating (ht : Turn opSize c k p c' p') (hp : allocating p') :
    allocating p ∨ p = .idle := by
  cases ht with
  | call _ hc => cases hc <;> simp_all [allocating]
  | access hn =>
    cases p
    all_goals
      simp only [Poll.next] at hn
      (try split at hn) <;> (try split at hn) <;> cases hn
    all_goals simp_all [allocating]

theorem StateMove.doing (hm : StateMove c p c' p') {i : Nat} (hlt : i < c.cache.length)
    (hi : states c i = .doing) (hp : p.current ≠ some i) : states c' i = .doing := by
  have off : ∀ {j : Nat} {x : OpState}, states c' = Function.update (states c) j x → i ≠ j →
      states c' i = .doing := fun h hij => by rw [h, Function.update_of_ne hij, hi]
  cases hm with
  | keep h => rw [h, hi]
  | grow h => exact off h (Nat.ne_of_lt hlt)
  | inuse j hj h => exact off h (by rintro rfl; exact hj hi)
  | unused j hj h => exact off h (by rintro rfl; exact hj hi)
  | take j hj h => exact off h (by rintro rfl; simp [hi] at hj)
  | done j hj h => exact off h (by rintro rfl; exact hp hj)

theorem StateMove.active (hm : StateMove c p c' p') {i : Nat} (hi : states c' i ≠ .unused)
    (hcur : ∀ j, p.current = some j → states c j = .doing) :
    (states c i ≠ .unused ∧ (grip p = some i → grip p' = some i)) ∨ grip p' = some i := by
  cases hm with
  | keep h hg =>
    refine .inl ⟨h ▸ hi, fun hp => ?_⟩
    obtain hg | hg := hg
    · simp [hg] at hp
    · rw [hg, hp]
  | grow h hg =>
    rw [h, Function.update_apply] at hi
    split at hi
    · exact absurd rfl hi
    · exact .inl ⟨hi, by simp [hg]⟩
  | inuse j _ h hg hg' =>
    rw [h, Function.update_apply] at hi
    split at hi
    · rename_i hij
      exact .inr (hij ▸ hg')
    · exact .inl ⟨hi, by simp [hg]⟩
  | unused j _ h hg =>
    rw [h, Function.update_apply] at hi
    split at hi
    · exact absurd rfl hi
    · rename_i hij
      exact .inl ⟨hi, fun hp => absurd (Option.some.inj (hp.symm.trans hg)) hij⟩
  | take j hj h hg =>
    rw [h, Function.update_apply] at hi
    refine .inl ⟨?_, by simp [hg]⟩
    split at hi
    · rename_i hij
      simp [hij, hj]
    · exact hi
  | done j hj h hg =>
    rw [h, Function.update_apply] at hi
    refine .inl ⟨?_, by simp [hg]⟩
    split at hi
    · rename_i hij
      simp [hij, hcur j hj]
    · exact hi

theorem StateMove.current (hm : StateMove c p c' p') {i : Nat} (hi : p'.current = some i) :
    p.current = some i ∧ states c' = states c ∨ states c i = .inuse ∧ states c' i = .doing := by
  cases hm with
  | keep hst _ h => exact .inl ⟨h ▸ hi, hst⟩
  | take j hj h _ _ h' =>
    cases h'.symm.trans hi
    exact .inr ⟨hj, by simp [h]⟩
  | grow _ _ h | inuse _ _ _ _ _ h | unused _ _ _ _ h | done _ _ _ _ h => simp [h] at hi

structure Cached (opSize : Nat) (s : Poll.System) : Prop where
  exclusive : Exclusive s
  growing : Growing opSize s
  placed : ∃ F, Placed s F

namespace Cached

theorem init : Cached opSize Poll.init := by
  obtain ⟨he, hg, hp, -⟩ : Poll.Inv opSize Poll.init [] := Poll.inv_init
  exact ⟨he, hg, [], hp⟩

theorem turn (hc : Cached opSize s) (ht : Turn opSize s.shared k (s.pc k) c p) :
    Cached opSize (s.enter c k p) := by
  obtain ⟨F, hF⟩ := hc.placed
  obtain ⟨G, hG, -⟩ := hF.step hc.exclusive hc.growing ht
  exact ⟨hc.exclusive.step ht, hc.growing.step hc.exclusive ht, G, hG⟩

theorem set (hc : Cached opSize s) (i : Nat) (x : OpState) :
    Cached opSize ⟨s.shared.set i fun o => { o with state := x }, s.pc⟩ := by
  obtain ⟨F, hF⟩ := hc.placed
  have hself : (⟨s.shared.set i fun o => { o with state := x }, s.pc⟩ : Poll.System) =
      s.enter (s.shared.set i fun o => { o with state := x }) 0 (s.pc 0) := by
    simp [State.enter]
  refine ⟨⟨hc.exclusive.polling, hc.exclusive.locked, hc.exclusive.freelocked⟩,
    ⟨hc.growing.index, hc.growing.ready, hc.growing.pop⟩, F, ?_⟩
  rw [hself]
  exact hF.keep rfl rfl (Poll.Cache.set_place fun _ => ⟨rfl, rfl⟩) Poll.pending_enter_poller rfl

theorem held (hc : Cached opSize s) {i : Nat} (h : (s.pc k).op = some i) :
    i < s.shared.cache.length :=
  let ⟨_, hF⟩ := hc.placed
  (hF.held k i h).1

theorem unique (hc : Cached opSize s) {i l : Nat} (hk : (s.pc k).op = some i)
    (hl : (s.pc l).op = some i) : k = l :=
  let ⟨_, hF⟩ := hc.placed
  hF.unique k l i hk hl

end Cached

structure InputBuffer.Open (b : InputBuffer) : Prop where
  pointers : ∃ h r f, b.head = some h ∧ b.read = some r ∧ b.flush = some f ∧
    b.write = some b.last ∧ h ≤ r ∧ r ≤ f ∧ f ≤ b.last

structure InputBuffer.Closed (b : InputBuffer) : Prop where
  head : b.head = none
  read : b.read = none
  flush : b.flush = none
  write : b.write = none

namespace InputBuffer

variable {b b' : InputBuffer}

theorem open_init : InputBuffer.init.Open :=
  ⟨0, 0, 0, rfl, rfl, rfl, rfl, Nat.le_refl _, Nat.le_refl _, Nat.le_refl _⟩

theorem Open.tail (hb : b.Open) : { b.link with flush := b.link.write }.Open := by
  obtain ⟨h, r, f, hh, hr, hf, hw, hhr, hrf, hfl⟩ := hb
  exact ⟨h, r, b.last + 1, hh, hr, rfl, rfl, hhr, by omega, Nat.le_refl _⟩

theorem Open.input (hb : b.Open) {n : Nat} {full : Bool} (h : b.input n full = some b') :
    b'.Open ∧ b'.read = b.read := by
  obtain ⟨h₀, r, f, hh, hr, hf, hw, hhr, hrf, hfl⟩ := hb
  simp only [InputBuffer.input, hw, Option.some.injEq] at h
  subst h
  split
  · exact ⟨⟨h₀, r, b.last + 1, hh, hr, rfl, rfl, hhr, by omega, Nat.le_refl _⟩, rfl⟩
  · exact ⟨⟨h₀, r, b.last, hh, hr, rfl, hw, hhr, by omega, Nat.le_refl _⟩, rfl⟩

theorem consume_pointers {n : Nat} (h : b.consume n = some b') :
    b'.head = b.head ∧ b'.read = b.read ∧ b'.flush = b.flush ∧ b'.write = b.write ∧
      b'.last = b.last := by
  simp only [consume] at h
  split at h
  · cases h
  · split at h <;> cases h
    exact ⟨rfl, rfl, rfl, rfl, rfl⟩

theorem Open.congr (hb : b.Open) (h : b'.head = b.head ∧ b'.read = b.read ∧ b'.flush = b.flush ∧
    b'.write = b.write ∧ b'.last = b.last) : b'.Open := by
  obtain ⟨h1, h2, h3, h4, h5⟩ := h
  obtain ⟨hb⟩ := hb
  exact ⟨by rw [h1, h2, h3, h4, h5]; exact hb⟩

theorem Open.advance (hb : b.Open) {q : Nat} (hq : b.read = some q) (hne : b.read ≠ b.flush) :
    { b with read := b.next q }.Open := by
  obtain ⟨h, r, f, hh, hr, hf, hw, hhr, hrf, hfl⟩ := hb
  obtain rfl : q = r := Option.some.inj (hq.symm.trans hr)
  have hlt : q < f := Nat.lt_of_le_of_ne hrf fun h => hne (by rw [hr, hf, h])
  exact ⟨h, q + 1, f, hh, by simp [InputBuffer.next, Nat.lt_of_lt_of_le hlt hfl], hf, hw,
    by omega, hlt, hfl⟩

theorem Open.sweep (hb : b.Open) (w : Sweep) : ∃ b' w', b.sweep w = some (b', w') ∧ b'.Open := by
  cases w with
  | read =>
    by_cases hrf : b.read = b.flush
    · exact ⟨b, some .head, by simp [InputBuffer.sweep, hrf], hb⟩
    · obtain ⟨h, r, f, hh, hr, -⟩ := id hb
      by_cases hl : (b.nodes r).len = 0
      · exact ⟨_,
          some .read, by
          simp only [InputBuffer.sweep, if_neg hrf]; simp only [hr, if_pos hl], hb.advance hr hrf⟩
      · exact ⟨b,
          some .head, by simp only [InputBuffer.sweep, if_neg hrf]; simp only [hr, if_neg hl], hb⟩
  | head =>
    by_cases hhr : b.head = b.read
    · exact ⟨b, none, by simp [InputBuffer.sweep, hhr], hb⟩
    · obtain ⟨h, r, f, hh, hr, hf, hw, hle, hrf, hfl⟩ := hb
      have hlt : h < r := Nat.lt_of_le_of_ne hle fun e => hhr (by rw [hh, hr, e])
      refine ⟨{ b with head := b.next h }, some .head, ?_, h + 1, r, f, ?_, hr, hf, hw, hlt, hrf,
        hfl⟩
      · simp only [InputBuffer.sweep, if_neg hhr]
        simp only [hh]
      · have : h < b.last := by omega
        simp [InputBuffer.next, this]

theorem Closed.sweep (hb : b.Closed) (w : Sweep) : ∃ w', b.sweep w = some (b, w') := by
  cases w with
  | read => exact ⟨some .head, by simp [InputBuffer.sweep, hb.read, hb.flush]⟩
  | head => exact ⟨none, by simp [InputBuffer.sweep, hb.head, hb.read]⟩

end InputBuffer

def FinPc.Fits (b : InputBuffer) : FinPc → Prop
  | .nilRead => b.head = none
  | .nilFlush => b.head = none ∧ b.read = none
  | .nilWrite => b.head = none ∧ b.read = none ∧ b.flush = none
  | .closed => b.Closed
  | .panicked => False
  | _ => b.Open

theorem FinPc.Fits.sweep {b : InputBuffer} {f : FinPc} (hb : f.Fits b) (hf : f.inside = false)
    (w : Sweep) : ∃ b' w', b.sweep w = some (b', w') ∧ f.Fits b' := by
  cases f with
  | before | test | bufferClose | kept => exact InputBuffer.Open.sweep hb w
  | closed =>
    obtain ⟨w', hw⟩ := InputBuffer.Closed.sweep hb w
    exact ⟨b, w', hw, hb⟩
  | panicked => exact hb.elim
  | _ => simp [FinPc.inside] at hf

def RelPc.Fits (b : InputBuffer) : RelPc → Prop
  | .sum node _ => ∃ p q, node = some p ∧ b.read = some q ∧ p ≤ q
  | .panicked => False
  | _ => True

structure Conn.Ok (x : Conn) (p : Poll.Pc) : Prop where
  begun : x.closing ≠ .before → p = .idle
  fresh : x.operator = none → x.release = .idle ∧ x.closing = .before
  busy : allocating p → x.operator = none
  buffer : x.closing.Fits x.input
  sum : x.release.Fits x.input
  apart : x.closing.inside → x.release.sweeping = false

namespace Conn.Ok

variable {x x' : Conn}

theorem init {handlers : Bool} {size : Nat} (h : allocating p = false) :
    Conn.Ok ⟨none, handlers, size, .init, .idle, .before⟩ p where
  begun h := absurd rfl h
  fresh _ := ⟨rfl, rfl⟩
  busy := by simp [h]
  buffer := InputBuffer.open_init
  sum := trivial
  apart := nofun

theorem opened (hx : x.Ok p) (h : x.closing = .before) : x.input.Open := by
  simpa [h, FinPc.Fits] using hx.buffer

theorem inputAck (hx : x.Ok p) {n : Nat} {full : Bool} (h : x.closing = .before)
    (hi : x.inputAck n full = some x') : x'.Ok p := by
  obtain ⟨b, hb, rfl⟩ := Option.map_eq_some_iff.mp hi
  obtain ⟨hopen, hread⟩ := (hx.opened h).input hb
  refine ⟨hx.begun, hx.fresh, hx.busy, by simpa [h, FinPc.Fits] using hopen, ?_, hx.apart⟩
  have hs := hx.sum
  cases hr : x.release <;> simp_all [RelPc.Fits]

theorem consume (hx : x.Ok p) {n : Nat} {b : InputBuffer} (hr : x.release = .idle)
    (hb : x.input.consume n = some b) : Conn.Ok { x with input := b } p := by
  have hsame := InputBuffer.consume_pointers hb
  refine ⟨hx.begun, hx.fresh, hx.busy, ?_, by simp [hr, RelPc.Fits], hx.apart⟩
  have hbuf := hx.buffer
  obtain ⟨h1, h2, h3, h4, -⟩ := id hsame
  cases hc : x.closing
  all_goals
    simp only [hc, FinPc.Fits] at hbuf ⊢ <;> first
      | exact hbuf.congr hsame
      | exact ⟨h1.trans hbuf.head, h2.trans hbuf.read, h3.trans hbuf.flush, h4.trans hbuf.write⟩
      | simpa [h1, h2, h3] using hbuf

theorem advance (hx : x.Ok p) {q : Nat} (hr : x.release = .idle) (hq : x.input.read = some q)
    (hne : x.input.read ≠ x.input.flush) :
    Conn.Ok { x with input := { x.input with read := x.input.next q } } p := by
  refine ⟨hx.begun, hx.fresh, hx.busy, ?_, by simp [hr, RelPc.Fits], hx.apart⟩
  have hbuf := hx.buffer
  cases hc : x.closing
  all_goals
    simp only [hc, FinPc.Fits] at hbuf ⊢ <;> first
      | exact hbuf.advance hq hne
      | exact hbuf
      | simp [hbuf.read] at hq
      | simp [hbuf.2] at hq

theorem release (hx : x.Ok p) (ho : x.operator ≠ none) : Conn.Ok { x with release := .len } p :=
  ⟨hx.begun, fun h => absurd h ho, hx.busy, hx.buffer, trivial, fun _ => rfl⟩

theorem close (hx : x.Ok .idle) (ho : x.operator ≠ none) (hhold : x.release.holding = false)
    (hcond : x.closing = .bufferClose → x.release.sweeping = false)
    (h : x.close = some x') : x'.Ok .idle ∧ x'.operator = x.operator ∧ x'.release = x.release := by
  have hbuf := hx.buffer
  have hap := hx.apart
  have hsum : ∀ b, x.release.Fits b := by
    have := hx.sum
    intro b
    cases hr : x.release <;> simp_all [RelPc.Fits, RelPc.holding]
  have done : ∀ {b f}, f.Fits b → (f.inside → x.release.sweeping = false) →
      Conn.Ok { x with input := b, closing := f } .idle := fun hf ha =>
    ⟨fun _ => rfl, fun h => absurd h ho, nofun, hf, hsum _, ha⟩
  simp only [Conn.close] at h
  split at h <;> rename_i hc <;> simp only [hc, FinPc.Fits, FinPc.inside] at hbuf hap
  case h_1 => cases h; exact ⟨done hbuf nofun, rfl, rfl⟩
  case h_2 =>
    cases h
    refine ⟨done ?_ ?_, rfl, rfl⟩
    · split <;> exact hbuf
    · split <;> nofun
  case h_3 => cases h; exact ⟨done hbuf fun _ => hcond hc, rfl, rfl⟩
  case h_4 =>
    cases h; exact ⟨done (hbuf.congr ⟨rfl, rfl, rfl, rfl, rfl⟩) fun _ => hap trivial, rfl, rfl⟩
  case h_5 w =>
    obtain ⟨b, w', hw, hopen⟩ := hbuf.sweep w
    simp only [hw] at h
    cases w' with
    | none => cases h; exact ⟨done hopen fun _ => hap trivial, rfl, rfl⟩
    | some w' => cases h; exact ⟨done hopen fun _ => hap trivial, rfl, rfl⟩
  case h_6 => cases h; exact ⟨done rfl fun _ => hap trivial, rfl, rfl⟩
  case h_7 => cases h; exact ⟨done ⟨hbuf, rfl⟩ fun _ => hap trivial, rfl, rfl⟩
  case h_8 => cases h; exact ⟨done ⟨hbuf.1, hbuf.2, rfl⟩ fun _ => hap trivial, rfl, rfl⟩
  case h_9 => cases h; exact ⟨done ⟨hbuf.1, hbuf.2.1, hbuf.2.2, rfl⟩ nofun, rfl, rfl⟩
  all_goals cases h

end Conn.Ok

inductive RunMove (c : Cache) (x : Conn) (c' : Cache) (x' : Conn) : Prop
  | keep : c' = c → (x'.release.holding → x.release.holding) → RunMove c x c' x'
  | take (i : Nat) : x.operator = some i → states c i = .inuse →
      c' = c.set i (fun o => { o with state := .doing }) → x'.release.holding = true →
      RunMove c x c' x'
  | done (i : Nat) : x.operator = some i → x.release.holding = true →
      c' = c.set i (fun o => { o with state := .inuse }) → x'.release.holding = false →
      RunMove c x c' x'

theorem Conn.run_move {x x' : Conn} (h : x.run c = some (c', x')) :
    RunMove c x c' x' ∧ x'.operator = x.operator ∧ x'.closing = x.closing ∧ x.release ≠ .idle := by
  simp only [Conn.run] at h
  split at h <;> rename_i hr
  all_goals
    (try split at h) <;> (try split at h) <;> cases h
  all_goals refine ⟨?_, rfl, rfl, by simp [hr]⟩
  all_goals first
    | exact .take _ ‹_› ‹_› rfl rfl
    | exact .done _ ‹_› (by simp [hr, RelPc.holding]) rfl rfl
    | exact .keep rfl (by simp [hr, RelPc.holding])

theorem Conn.Ok.run {x x' : Conn} (hx : x.Ok p) (h : x.run c = some (c', x'))
    (hhold : x.release.holding → x.closing = .before)
    (hcond : x.release = .bufferRelease → x.closing.inside = false) : x'.Ok p := by
  obtain ⟨-, hop, hcl, hidle⟩ := Conn.run_move h
  have ho : x.operator ≠ none := fun h => hidle (hx.fresh h).1
  have done : ∀ {b r}, x'.input = b → x'.release = r → x.closing.Fits b → r.Fits b →
      (x.closing.inside → r.sweeping = false) → x'.Ok p := by
    rintro _ _ rfl rfl hb hr ha
    refine ⟨by rw [hcl]; exact hx.begun, by rw [hop]; exact fun h => absurd h ho, by
      rw [hop]; exact hx.busy, by rw [hcl]; exact hb, hr, by rw [hcl]; exact ha⟩
  have hbuf := hx.buffer
  have hsum := hx.sum
  simp only [Conn.run] at h
  split at h <;> rename_i hr <;> simp only [hr, RelPc.holding, RelPc.Fits] at hhold hsum
  case h_1 => cases h
  case h_3 =>
    cases h
    refine done rfl rfl hbuf ?_ fun _ => ?_ <;> split <;> trivial
  case h_4 =>
    split at h
    · cases h
    · split at h <;> cases h <;> exact done rfl rfl hbuf trivial fun _ => rfl
  case h_5 =>
    cases h
    obtain ⟨n, q, f, hh, hq, -, -, hle, -⟩ := hx.opened (hhold trivial)
    exact done rfl rfl hbuf ⟨n, q, hh, hq, hle⟩ fun _ => rfl
  case h_6 =>
    obtain ⟨n, q, rfl, hq, hle⟩ := hsum
    obtain ⟨-, q', f, -, hq', -, -, -, hqf, hfl⟩ := hx.opened (hhold trivial)
    cases hq.symm.trans hq'
    simp only [hq, Option.some.injEq] at h
    split at h <;> cases h
    · exact done rfl rfl hbuf trivial fun _ => rfl
    · rename_i hne
      have hlt : n < q := Nat.lt_of_le_of_ne hle hne
      exact done rfl rfl hbuf ⟨n + 1, q, if_pos (by omega), hq, hlt⟩ fun _ => rfl
  case h_7 => cases h; exact done rfl rfl hbuf trivial fun _ => rfl
  case h_8 =>
    cases h
    refine done rfl rfl hbuf ?_ fun _ => ?_ <;> split <;> trivial
  case h_9 =>
    have hopen := hx.opened (hhold trivial)
    split at h
    · cases h
      exact done rfl rfl hbuf trivial fun _ => rfl
    · obtain ⟨-, -, -, -, -, -, hw, -⟩ := id hopen
      simp only [hw] at h
      cases h
      exact done rfl rfl (by simpa [hhold trivial, FinPc.Fits] using hopen.tail) trivial
        fun _ => rfl
  case h_10 =>
    split at h <;> cases h
    exact done rfl rfl hbuf trivial fun _ => rfl
  case h_11 =>
    cases h
    exact done rfl rfl hbuf trivial fun hin => absurd hin (by simp [hcond hr])
  case h_12 w =>
    have hout : x.closing.inside = false := by
      by_contra hin
      simpa [hr, RelPc.sweeping] using hx.apart (by simpa using hin)
    obtain ⟨b, w', hw, hb⟩ := hbuf.sweep hout w
    simp only [hw] at h
    cases w' with
    | none => cases h; exact done rfl rfl hb trivial fun _ => rfl
    | some w' => cases h; exact done rfl rfl hb trivial fun hin => absurd hin (by simp [hout])

structure Kept (opSize : Nat) (w : World) : Prop where
  cached : Cached opSize w.poll
  owned : ∀ k i, (w.poll.pc k).op = some i → w.owner i = k ∧ (w.conns k).operator = some i
  active : ∀ i, states w.poll.shared i ≠ .unused → ∃ k, grip (w.poll.pc k) = some i
  current : ∀ i, (w.poll.pc 0).current = some i →
    states w.poll.shared i = .doing ∧ ∀ r, ¬ (w.conns r).holds i
  holds : ∀ r i, (w.conns r).holds i → states w.poll.shared i = .doing
  mine : ∀ r i, (w.conns r).release ≠ .idle → (w.conns r).operator = some i → w.owner i = r
  ok : ∀ r, (w.conns r).Ok (w.poll.pc r)

namespace Kept

variable {w w' : World} {r i : Nat} {x : Conn}

theorem init (handlers : Nat → Bool) (size : Nat) : Kept opSize (init handlers size) where
  cached := .init
  owned k i h := by simp [Release.init, Poll.init_op] at h
  active i h := by simp [Release.init, Poll.init, states] at h
  current i h := by simp [Release.init, Poll.init, Poll.Pc.current] at h
  holds r i h := by simp [Conn.holds, Release.init] at h
  mine r i h := by simp [Release.init] at h
  ok r := .init (by simp only [Release.init, Poll.init]; split <;> rfl)

theorem grip_owner (hw : Kept opSize w) (h : states w.poll.shared i ≠ .unused) :
    grip (w.poll.pc (w.owner i)) = some i := by
  obtain ⟨k, hk⟩ := hw.active i h
  rwa [(hw.owned k i (op_of_grip hk)).1]

theorem before_of_grip (hw : Kept opSize w) (h : grip (w.poll.pc r) = some i) :
    (w.conns r).closing = .before := by
  by_contra hc
  simp [(hw.ok r).begun hc, grip] at h

theorem lt_of_doing (hw : Kept opSize w) (h : states w.poll.shared i = .doing) :
    i < w.poll.shared.cache.length :=
  hw.cached.held (op_of_grip (hw.grip_owner (by simp [h])))

theorem holds_own (hw : Kept opSize w) (h : (w.conns r).release.holding) :
    ∃ i, (w.conns r).holds i ∧ grip (w.poll.pc r) = some i := by
  have hr : (w.conns r).release ≠ .idle := fun h' => by simp [h', RelPc.holding] at h
  obtain ⟨i, hi⟩ : ∃ i, (w.conns r).operator = some i :=
    Option.ne_none_iff_exists'.mp fun h' => hr ((hw.ok r).fresh h').1
  have hg := hw.grip_owner (i := i) (by simp [hw.holds r i ⟨hi, h⟩])
  exact ⟨i, ⟨hi, h⟩, by rwa [hw.mine r i hr hi] at hg⟩

theorem update (hw : Kept opSize w) (hc : Cached opSize ⟨c, w.poll.pc⟩)
    (hop : x.operator = (w.conns r).operator)
    (hact : ∀ i, states c i ≠ .unused → states w.poll.shared i ≠ .unused)
    (hcur : ∀ i, (w.poll.pc 0).current = some i → states c i = .doing ∧ ¬ x.holds i)
    (hx : ∀ i, x.holds i → states c i = .doing)
    (hother : ∀ l i, l ≠ r → (w.conns l).holds i → states c i = .doing)
    (hmine : ∀ i, x.release ≠ .idle → x.operator = some i → w.owner i = r)
    (hok : x.Ok (w.poll.pc r)) : Kept opSize { w.setConn r x with poll := ⟨c, w.poll.pc⟩ } := by
  refine ⟨hc, ?_, fun i h => hw.active i (hact i h), ?_, ?_, ?_, ?_⟩
  · intro k i h
    refine ⟨(hw.owned k i h).1, ?_⟩
    rcases eq_or_ne k r with rfl | hk
    · simpa [World.setConn, hop] using (hw.owned k i h).2
    · simpa [World.setConn, hk] using (hw.owned k i h).2
  · intro i h
    refine ⟨(hcur i h).1, fun l => ?_⟩
    rcases eq_or_ne l r with rfl | hl
    · simpa [World.setConn] using (hcur i h).2
    · simpa [World.setConn, hl] using (hw.current i h).2 l
  · intro l i h
    rcases eq_or_ne l r with rfl | hl
    · exact hx i (by simpa [World.setConn] using h)
    · exact hother l i hl (by simpa [World.setConn, hl] using h)
  · intro l i
    rcases eq_or_ne l r with rfl | hl
    · simpa [World.setConn] using hmine i
    · simpa [World.setConn, hl] using hw.mine l i
  · intro l
    rcases eq_or_ne l r with rfl | hl
    · simpa [World.setConn] using hok
    · simpa [World.setConn, hl] using hw.ok l

theorem setConn (hw : Kept opSize w) (hop : x.operator = (w.conns r).operator)
    (hhold : x.release.holding → (w.conns r).release.holding)
    (hmine : ∀ i, x.release ≠ .idle → x.operator = some i → w.owner i = r)
    (hok : x.Ok (w.poll.pc r)) : Kept opSize (w.setConn r x) := by
  have hold : ∀ i, x.holds i → (w.conns r).holds i := fun i h => ⟨hop ▸ h.1, hhold h.2⟩
  exact hw.update (c := w.poll.shared) hw.cached hop (fun _ h => h)
    (fun i h => ⟨(hw.current i h).1, fun hx => (hw.current i h).2 r (hold i hx)⟩)
    (fun i h => hw.holds r i (hold i h)) (fun l i _ h => hw.holds l i h) hmine hok

theorem holds_unique (hw : Kept opSize w) {l : Nat} (hr : (w.conns r).holds i)
    (hl : (w.conns l).holds i) : l = r := by
  have busy : ∀ {m}, (w.conns m).holds i → w.owner i = m := fun {m} h =>
    hw.mine m i (fun h' => by simp [Conn.holds, h', RelPc.holding] at h) h.1
  exact (busy hl).symm.trans (busy hr)

theorem run (hw : Kept opSize w) (hcond : Label.orderly w (.run r) = true)
    (h : (w.conns r).run w.poll.shared = some (c, x)) :
    Kept opSize { w.setConn r x with poll := ⟨c, w.poll.pc⟩ } := by
  obtain ⟨hm, hop, -, hidle⟩ := Conn.run_move h
  have hok := (hw.ok r).run h
    (fun hh => let ⟨_, _, hg⟩ := hw.holds_own hh; hw.before_of_grip hg) (of_decide_eq_true hcond)
  have hmine : ∀ i, x.release ≠ .idle → x.operator = some i → w.owner i = r :=
    fun i _ hi => hw.mine r i hidle (hop ▸ hi)
  cases hm with
  | keep hc hh =>
    subst hc
    exact hw.setConn hop hh hmine hok
  | take i hi hin hc hh =>
    subst hc
    have free : ∀ l j, (w.conns l).holds j → j ≠ i := by
      rintro l j hl rfl
      simp [hw.holds l j hl] at hin
    have hst := states_set (c := w.poll.shared) i fun o => { o with state := .doing }
    refine hw.update (hw.cached.set i .doing) hop ?_ ?_ ?_ ?_ hmine hok
    · intro j hj
      rcases eq_or_ne j i with rfl | hji
      · simp [hin]
      · simpa [hst, hji] using hj
    · intro j hj
      have hji : j ≠ i := by
        rintro rfl
        simp [(hw.current j hj).1] at hin
      refine ⟨by simpa [hst, hji] using (hw.current j hj).1, fun hx => ?_⟩
      exact hji (Option.some.inj (hx.1.symm.trans (hop.trans hi)))
    · intro j hj
      obtain rfl : j = i := Option.some.inj (hj.1.symm.trans (hop.trans hi))
      simp [hst]
    · intro l j _ hl
      simpa [hst, free l j hl] using hw.holds l j hl
  | done i hi hold hc hh =>
    subst hc
    have hri : (w.conns r).holds i := ⟨hi, hold⟩
    have hst := states_set (c := w.poll.shared) i fun o => { o with state := .inuse }
    refine hw.update (hw.cached.set i .inuse) hop ?_ ?_ ?_ ?_ hmine hok
    · intro j hj
      rcases eq_or_ne j i with rfl | hji
      · simp [hw.holds r j hri]
      · simpa [hst, hji] using hj
    · intro j hj
      have hji : j ≠ i := by
        rintro rfl
        exact (hw.current j hj).2 r hri
      exact ⟨by simpa [hst, hji] using (hw.current j hj).1, by simp [Conn.holds, hh]⟩
    · intro j hj
      simp [Conn.holds, hh] at hj
    · intro l j hlr hl
      have hji : j ≠ i := by
        rintro rfl
        exact hlr (hw.holds_unique hri hl)
      simpa [hst, hji] using hw.holds l j hl

theorem turn (hw : Kept opSize w) (ht : Turn opSize w.poll.shared k (w.poll.pc k) c p)
    {conns : Nat → Conn} {owner : Nat → Nat}
    (hhold : ∀ l i, (conns l).holds i → (w.conns l).holds i)
    (howned : ∀ l i, ((w.poll.enter c k p).pc l).op = some i →
      owner i = l ∧ (conns l).operator = some i)
    (hmine : ∀ l i, (conns l).release ≠ .idle → (conns l).operator = some i → owner i = l)
    (hok : ∀ l, (conns l).Ok ((w.poll.enter c k p).pc l)) :
    Kept opSize ⟨w.poll.enter c k p, conns, owner⟩ := by
  have hm := turn_states ht
  have hcur : ∀ j, (w.poll.pc k).current = some j → k = 0 := fun j hj => by
    by_contra hk
    have : (w.poll.pc k).polling = false := by
      by_contra h
      exact hk ((hw.cached.exclusive.polling k).mp (by simpa using h))
    simp [current_of_owner this] at hj
  have hdoing : ∀ j, (w.poll.pc k).current = some j → states w.poll.shared j = .doing := by
    intro j hj
    obtain rfl := hcur j hj
    exact (hw.current j hj).1
  have hkeep : ∀ l i, (w.conns l).holds i → states c i = .doing := by
    intro l i hl
    refine hm.doing (hw.lt_of_doing (hw.holds l i hl)) (hw.holds l i hl) fun hj => ?_
    obtain rfl := hcur i hj
    exact (hw.current i hj).2 l hl
  refine ⟨hw.cached.turn ht, howned, ?_, ?_, fun l i h => hkeep l i (hhold l i h), hmine, hok⟩
  · intro i hi
    obtain ⟨hold, hg⟩ | hg := hm.active hi hdoing
    · obtain ⟨l, hl⟩ := hw.active i hold
      refine ⟨l, ?_⟩
      rcases eq_or_ne l k with rfl | hlk
      · simpa using hg hl
      · simpa [hlk] using hl
    · exact ⟨k, by simpa using hg⟩
  · intro i hi
    have hno : ∀ {j}, states w.poll.shared j = .inuse → ∀ l, ¬ (conns l).holds j := by
      intro j hj l hl
      simp [hw.holds l j (hhold l j hl)] at hj
    rcases eq_or_ne k 0 with rfl | hk
    · obtain ⟨hold, hst⟩ | ⟨hin, hdo⟩ := hm.current (by simpa using hi)
      · obtain ⟨hd, hn⟩ := hw.current i hold
        exact ⟨by simpa [hst] using hd, fun l hl => hn l (hhold l i hl)⟩
      · exact ⟨hdo, hno hin⟩
    · rw [State.enter_pc_of_ne _ _ _ hk.symm] at hi
      obtain ⟨hd, hn⟩ := hw.current i hi
      refine ⟨hm.doing (hw.lt_of_doing hd) hd fun hj => hk (hcur i hj),
        fun l hl => hn l (hhold l i hl)⟩

theorem track (hw : Kept opSize w) (ht : Turn opSize w.poll.shared k (w.poll.pc k) c p)
    (halloc : w.poll.pc k = .idle → (w.conns k).operator = none)
    (hcond : w.poll.pc k = .allocPop → Label.orderly w (.poll (.run k)) = true) :
    Kept opSize (w.track k (w.poll.enter c k p)) := by
  by_cases hpop : w.poll.pc k = .allocPop
  · obtain ⟨op, hfirst, rfl⟩ := turn_pop (hpop ▸ ht)
    have hnone : (w.conns k).operator = none := (hw.ok k).busy (by simp [hpop, allocating])
    obtain ⟨hidle, hbefore⟩ := (hw.ok k).fresh hnone
    have hfree : (w.conns (w.owner op)).release = .idle := by
      simpa [Label.orderly, hpop, hfirst] using hcond hpop
    have hcached := hw.cached.turn ht
    simp only [World.track, hpop, State.enter_pc_self]
    refine hw.turn ht ?_ ?_ ?_ ?_
    · intro l i
      rcases eq_or_ne l k with rfl | hlk
      · simp [Conn.holds, hidle, RelPc.holding]
      · simp [hlk]
    · intro l i hl
      rcases eq_or_ne l k with rfl | hlk
      · obtain rfl : op = i := by simpa [Poll.Pc.op] using hl
        simp
      · have hne : i ≠ op := by
          rintro rfl
          exact hlk (hcached.unique hl (by simp [Poll.Pc.op]))
        rw [State.enter_pc_of_ne _ _ _ hlk] at hl
        simpa [hne, hlk] using hw.owned l i hl
    · intro l i hr hi
      rcases eq_or_ne l k with rfl | hlk
      · simp [hidle] at hr
      · simp only [Function.update_of_ne hlk] at hr hi
        have hne : i ≠ op := by
          rintro rfl
          exact hr (hw.mine l i hr hi ▸ hfree)
        simpa [hne] using hw.mine l i hr hi
    · intro l
      rcases eq_or_ne l k with rfl | hlk
      · have hx := hw.ok l
        simp only [Function.update_self, State.enter_pc_self]
        exact ⟨fun h => absurd hbefore h, by rintro ⟨⟩, by rintro ⟨⟩, hx.buffer, hx.sum, hx.apart⟩
      · simpa [hlk] using hw.ok l
  · have heq : w.track k (w.poll.enter c k p) = ⟨w.poll.enter c k p, w.conns, w.owner⟩ := by
      simp only [World.track]
      split
      · exact absurd ‹_› hpop
      · rfl
    rw [heq]
    refine hw.turn ht (fun _ _ h => h) ?_ hw.mine ?_
    · intro l i hl
      rcases eq_or_ne l k with rfl | hlk
      · exact hw.owned l i (turn_op ht hpop (by simpa using hl))
      · exact hw.owned l i (by simpa [hlk] using hl)
    · intro l
      rcases eq_or_ne l k with rfl | hlk
      · have hx := hw.ok l
        simp only [State.enter_pc_self]
        refine ⟨fun h => ?_, hx.fresh, fun h => ?_, hx.buffer, hx.sum, hx.apart⟩
        · -- a connection that has been freed does not allocate again
          exact absurd (hx.fresh (halloc (hx.begun h))).2 h
        · obtain h | h := turn_allocating ht h
          · exact hx.busy h
          · exact halloc h
      · simpa [hlk] using hw.ok l

theorem step {a : Label} (hw : Kept opSize w) (ha : a.orderly w = true)
    (h : step opSize w a = some w') : Kept opSize w' := by
  cases a with
  | poll a =>
    simp only [Release.step] at h
    split at h
    · cases h
    · rename_i hg
      obtain ⟨s', hs, rfl⟩ := Option.map_eq_some_iff.mp h
      obtain ⟨c, p, ht, rfl⟩ := Poll.step_cases hs
      refine hw.track ht (fun hk => ?_) fun hk => ?_
      · by_contra ho
        exact hg ⟨Poll.step_idle hs hk, ho⟩
      · rwa [← Poll.step_allocPop hs hk]
  | input n full =>
    simp only [Release.step] at h
    split at h
    · rename_i e events hq
      obtain ⟨x, hx, rfl⟩ := Option.map_eq_some_iff.mp h
      have hd := (hw.current e.op (by simp [hq, Poll.Pc.current])).1
      have hok := (hw.ok (w.owner e.op)).inputAck
        (hw.before_of_grip (hw.grip_owner (by simp [hd]))) hx
      obtain ⟨b, hb, rfl⟩ := Option.map_eq_some_iff.mp hx
      exact hw.setConn rfl (fun h => h) (hw.mine _) hok
    · cases h
  | consume r n =>
    simp only [Release.step] at h
    split at h
    · rename_i hr
      obtain ⟨b, hb, rfl⟩ := Option.map_eq_some_iff.mp h
      exact hw.setConn rfl (fun h => h) (hw.mine r) ((hw.ok r).consume hr hb)
    · cases h
  | advance r =>
    simp only [Release.step] at h
    split at h
    · rename_i q hr hq
      split at h <;> cases h
      rename_i hne
      exact hw.setConn rfl (fun h => h) (hw.mine r) ((hw.ok r).advance hr hq hne.1)
    · cases h
  | release r =>
    simp only [Release.step] at h
    split at h <;> cases h
    rename_i hr
    refine hw.setConn rfl (by rintro ⟨⟩) (fun i _ hi => ?_) ((hw.ok r).release hr.2)
    simpa [Label.orderly, show (w.conns r).operator = some i from hi] using ha
  | run r =>
    obtain ⟨⟨c, x⟩, hx, rfl⟩ := Option.map_eq_some_iff.mp h
    exact hw.run ha hx
  | close r =>
    simp only [Release.step] at h
    split at h
    · rename_i hr
      obtain ⟨x, hx, rfl⟩ := Option.map_eq_some_iff.mp h
      have hok := hw.ok r
      rw [hr.1] at hok
      have hhold : (w.conns r).release.holding = false := by
        by_contra hh
        obtain ⟨i, -, hi⟩ := hw.holds_own (by simpa using hh)
        simp [hr.1, grip] at hi
      obtain ⟨hok', hop, hrel⟩ := hok.close hr.2 hhold (of_decide_eq_true ha) hx
      refine hw.setConn hop (by simp [hrel]) (fun i hi ho => ?_) (hr.1 ▸ hok')
      exact hw.mine r i (hrel ▸ hi) (hop ▸ ho)
    · cases h

end Kept

/-- An operator that a `Release` has taken belongs to no other connection, and no
`Release` dereferences nil. -/
theorem release_harmless (opSize : Nat) (handlers : Nat → Bool) (bufferSize : Nat) {w : World}
    (hr : Reach (step opSize) (fun w a => a.orderly w = true) (init handlers bufferSize) w)
    (r : Nat) :
    (∀ i, (w.conns r).holds i → ∀ k, (w.poll.pc k).op = some i → k = r) ∧
      (w.conns r).release ≠ .panicked := by
  have hw : Kept opSize w := hr.invariant (.init handlers bufferSize)
    fun _ _ _ hw ha h => hw.step ha h
  refine ⟨fun i hi k hk => ?_, fun hp => ?_⟩
  · obtain ⟨j, hj, hg⟩ := hw.holds_own hi.2
    cases hi.1.symm.trans hj.1
    exact hw.cached.unique hk (op_of_grip hg)
  · simpa [hp, RelPc.Fits] using (hw.ok r).sum

theorem release_harmless_recycled :
    ∃ w, Reach (step 4096) (fun w a => a.orderly w = true) (init (fun _ => true) 8192) w ∧
      (w.conns 1).closing = .closed ∧ (w.conns 1).operator = some 0 ∧ (w.conns 2).holds 0 ∧
      ∀ k, (w.poll.pc k).op = some 0 → k = 2 := by
  have hrun : ∃ w, runs (guarded (step 4096) fun w a => a.orderly w) (init (fun _ => true) 8192)
      (List.flatten [[.poll (.alloc 1)], List.replicate 8 (.poll (.run 1)), [.poll (.register 1)],
        List.replicate 3 (.poll (.run 1)), [.poll (.wait [1]), .poll (.detach 1)],
        List.replicate 3 (.poll (.run 1)), [.poll (.free 1)], List.replicate 5 (.poll (.run 1)),
        List.replicate 10 (.close 1), [.release 1], List.replicate 5 (.run 1),
        List.replicate 10 (.poll (.run 0)), [.poll (.alloc 2)], List.replicate 6 (.poll (.run 2)),
        [.poll (.register 2)], List.replicate 3 (.poll (.run 2)), [.release 2],
        List.replicate 2 (.run 2)]) = some w ∧
      (w.conns 1).closing = .closed ∧ (w.conns 1).operator = some 0 ∧ (w.conns 2).holds 0 :=
    ⟨_, rfl, rfl, rfl, rfl, rfl⟩
  obtain ⟨w, hw, hc, ho, hh⟩ := hrun
  have hr := Reach.of_runs hw
  exact ⟨w, hr, hc, ho, hh, (release_harmless _ _ _ hr 2).1 0 hh⟩

/-- After connection 2 has registered the operator of the closed connection 1,
`Release` of connection 1 takes it and dereferences nil.  And `inputBuffer.Close`
may clear the pointers under the loops of `inputBuffer.Release`. -/
theorem release_takes_recycled :
    (∃ w w', Reach (step 4096) (fun _ _ => True) (init (fun _ => true) 8192) w ∧
      (w.conns 1).closing = .closed ∧ (w.conns 1).holds 0 ∧ w.poll.pc 2 = .registered 0 ∧
      runs (step 4096) w [.run 1, .run 1] = some w' ∧ (w'.conns 1).release = .panicked) ∧
    ∃ w, Reach (step 4096) (fun _ _ => True) (init (fun _ => true) 8192) w ∧
      (w.conns 1).release = .panicked ∧ w.owner 0 = 1 := by
  have hrun : ∃ w, runs (guarded (step 4096) fun _ _ => true) (init (fun _ => true) 8192)
      (List.flatten [[.poll (.alloc 1)], List.replicate 8 (.poll (.run 1)), [.poll (.register 1)],
        List.replicate 3 (.poll (.run 1)), [.poll (.wait [1]), .poll (.detach 1)],
        List.replicate 3 (.poll (.run 1)), [.poll (.free 1)], List.replicate 5 (.poll (.run 1)),
        List.replicate 10 (.close 1), List.replicate 10 (.poll (.run 0)), [.poll (.alloc 2)],
        List.replicate 6 (.poll (.run 2)), [.poll (.register 2)], List.replicate 3 (.poll (.run 2)),
        [.release 1], List.replicate 2 (.run 1)]) = some w ∧
      (w.conns 1).closing = .closed ∧ (w.conns 1).holds 0 ∧ w.poll.pc 2 = .registered 0 ∧
      ∃ w', runs (step 4096) w [.run 1, .run 1] = some w' ∧ (w'.conns 1).release = .panicked :=
    ⟨_, rfl, rfl, ⟨rfl, rfl⟩, rfl, _, rfl, rfl⟩
  have hrace : ∃ w, runs (guarded (step 4096) fun _ _ => true) (init (fun _ => true) 8192)
      (List.flatten [[.poll (.alloc 1)], List.replicate 8 (.poll (.run 1)), [.poll (.register 1)],
        List.replicate 3 (.poll (.run 1)), [.poll (.detach 1)], List.replicate 3 (.poll (.run 1)),
        [.poll (.free 1)], List.replicate 5 (.poll (.run 1)), [.release 1],
        List.replicate 4 (.run 1), List.replicate 7 (.close 1), [.run 1]]) = some w ∧
      (w.conns 1).release = .panicked ∧ w.owner 0 = 1 :=
    ⟨_, rfl, rfl, rfl⟩
  have free : ∀ {w}, Reach (step 4096) (fun _ _ => true = true) (init (fun _ => true) 8192) w →
      Reach (step 4096) (fun _ _ => True) (init (fun _ => true) 8192) w :=
    fun h => h.mono fun _ _ _ _ => trivial
  obtain ⟨w, hw, hc, hh, h2, w', hw', hp⟩ := hrun
  obtain ⟨v, hv, hv'⟩ := hrace
  exact ⟨⟨w, w', free (Reach.of_runs hw), hc, hh, h2, hw', hp⟩, v, free (Reach.of_runs hv), hv'⟩

end Netpoll.Release
