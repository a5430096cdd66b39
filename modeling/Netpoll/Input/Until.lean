import Netpoll.Lib.Transition
import Netpoll.Input.WaitRead

/-! `Until`, which connections and read FIFOs also share word for word: a loop of
`waitRead` and `indexByte` over an input buffer that grows meanwhile. -/

namespace Netpoll.Input.Until

open Netpoll.Lib.Transition

/-- A connection or a FIFO, as its reader sees it. -/
structure Source (σ ι : Type*) where
  step : σ → ι → Option σ
  inbox : σ → Inbox
  reader : σ → Option WaitPc
  call : Nat → ι
  read : ι
  consume : Nat → ι
  other : ι → Bool
  acks : σ → ι → Nat

inductive Pc (α : Type*)
  -- the head of the loop, and inside `waitRead(n + 1)`
  | loop (n : Nat) | wait (n : Nat)
  -- `l = Len()`, and `indexByte(delim, n)`
  | len (n : Nat) | index (n l : Nat)
  -- `c.Next(i + 1)`: inside its `waitRead`, and `inputBuffer.Next(i + 1)`
  | next (i : Nat) | nextWait (i : Nat) | take (i : Nat)
  -- the error branch: `inputBuffer.Len()`, and `inputBuffer.Next` of it
  | drain (err : ReadErr) | drainTake (m : Nat) (err : ReadErr)
  | returned (line : List α) (err : Option ReadErr)
  deriving DecidableEq, Repr

structure State (σ α : Type*) where
  source : σ
  input : List α
  /-- the bytes that were unread at the call and those acknowledged since -/
  stream : List α
  pc : Pc α

inductive Label (ι α : Type*)
  | other (a : ι) (chunk : List α)
  | run
  deriving DecidableEq, Repr

def result : WaitPc → Option ReadErr
  | .clear _ err => err
  | _ => none

def indexByte {α : Type*} [BEq α] (input : List α) (c : α) (skip : Nat) : Option Nat :=
  ((input.drop skip).idxOf? c).map (skip + ·)

section

variable {σ ι α : Type*} [DecidableEq α] (W : Source σ ι) (delim : α)

def reads (s : State σ α) (stay : Pc α) (done : Option ReadErr → Pc α) : Option (State σ α) :=
  match W.reader s.source with
  | none => none
  | some w => (W.step s.source W.read).map fun t =>
    { s with source := t, pc := if (W.reader t).isSome then stay else done (result w) }

def takes (s : State σ α) (m : Nat) (err : Option ReadErr) : Option (State σ α) :=
  (W.step s.source (W.consume m)).map fun t =>
    { s with source := t, input := s.input.drop m, pc := .returned (s.input.take m) err }

def run (s : State σ α) : Option (State σ α) :=
  match s.pc with
  | .loop n => (W.step s.source (W.call (n + 1))).map fun t => { s with source := t, pc := .wait n }
  | .wait n => reads W s (.wait n) fun
    | some err => .drain err
    | none => .len n
  | .len n => some { s with pc := .index n (W.inbox s.source).length }
  | .index n l =>
    match indexByte s.input delim n with
    | none => some { s with pc := .loop l }
    | some i => some { s with pc := .next i }
  | .next i => (W.step s.source (W.call (i + 1))).map fun t =>
    { s with source := t, pc := .nextWait i }
  | .nextWait i => reads W s (.nextWait i) fun
    | some err => .returned [] (some err)
    | none => .take i
  | .take i => takes W s (i + 1) none
  | .drain err => some { s with pc := .drainTake (W.inbox s.source).length err }
  | .drainTake m err => takes W s m (some err)
  | .returned _ _ => none

def step (s : State σ α) : Label ι α → Option (State σ α)
  | .other a chunk =>
    if W.other a ∧ chunk.length = W.acks s.source a then
      (W.step s.source a).map fun t =>
        { s with source := t, input := s.input ++ chunk, stream := s.stream ++ chunk }
    else none
  | .run => run W delim s

def start (s : σ) (input : List α) : State σ α := ⟨s, input, input, .loop 0⟩

def Label.Meets (P : σ → ι → Prop) (s : State σ α) : Label ι α → Prop
  | .other a _ => P s.source a
  | .run => True

end

/-- What the reader relies on, in the states of `I` and as long as the steps of the
others meet `P`. -/
structure Lawful {σ ι : Type*} (W : Source σ ι) (I : σ → Prop) (P : σ → ι → Prop) : Prop where
  other {s a s'} : I s → P s a → W.other a → W.step s a = some s' →
    I s' ∧ W.reader s' = W.reader s ∧ (W.inbox s').length = (W.inbox s).length + W.acks s a
  call {s n s'} : I s → W.step s (W.call n) = some s' →
    I s' ∧ W.reader s' = some (.entry n) ∧ (W.inbox s').length = (W.inbox s).length
  read {s s' w} : I s → W.reader s = some w → W.step s W.read = some s' →
    I s' ∧ (∃ b, waitRead (W.inbox s) w = some (b, W.reader s')) ∧
      (W.inbox s').length = (W.inbox s).length
  consume {s m s'} : I s → W.step s (W.consume m) = some s' →
    I s' ∧ (W.inbox s').length = (W.inbox s).length - m
  closed {s a s'} : I s → (W.inbox s).closing ≠ .none → W.step s a = some s' →
    (W.inbox s').closing ≠ .none
  short {s n err} : I s → W.reader s = some (.clear n (some err)) →
    (W.inbox s).closing ≠ .none ∧ (W.inbox s).length < n
  last {s a} : I s → (W.inbox s).closing ≠ .none → W.acks s a = 0

def First {α : Type*} (delim : α) (input : List α) (i : Nat) : Prop :=
  ∃ line rest, input = line ++ delim :: rest ∧ line.length = i ∧ delim ∉ line

/-- What `Until` returns for a stream, and what it leaves in the buffer: the bytes up
to the first delimiter and a nil error, or all of them and an error. -/
structure Answers {α : Type*} (delim : α) (stream input line : List α) (err : Option ReadErr) :
    Prop where
  consumed : stream = line ++ input
  found : delim ∈ stream → err = none ∧ ∃ l, line = l ++ [delim] ∧ delim ∉ l
  missed : delim ∉ stream → err.isSome ∧ line = stream

structure Searched {α : Type*} (delim : α) (stream input : List α) (n : Nat) : Prop where
  stream : stream = input
  le : n ≤ input.length
  clean : delim ∉ input.take n

def At {σ ι α : Type*} (W : Source σ ι) (delim : α) (s : σ) (stream input : List α) : Pc α → Prop
  | .loop n | .len n => Searched delim stream input n
  | .wait n => Searched delim stream input n ∧ ∀ w, W.reader s = some w → w.size = n + 1
  | .index n l => Searched delim stream input n ∧ l ≤ input.length
  | .next i | .take i => stream = input ∧ First delim input i
  | .nextWait i => (stream = input ∧ First delim input i) ∧
      ∀ w, W.reader s = some w → w = .entry (i + 1)
  | .drain _ => stream = input ∧ delim ∉ input ∧ (W.inbox s).closing ≠ .none
  | .drainTake m _ =>
      stream = input ∧ delim ∉ input ∧ (W.inbox s).closing ≠ .none ∧ m = input.length
  | .returned line err => Answers delim stream input line err ∧
      (err.isSome → (W.inbox s).closing ≠ .none)

structure Running {σ ι α : Type*} (W : Source σ ι) (I : σ → Prop) (delim : α) (s : State σ α) :
    Prop where
  inv : I s.source
  length : s.input.length = (W.inbox s.source).length
  stands : At W delim s.source s.stream s.input s.pc

section

variable {σ ι α : Type*} {W : Source σ ι} {I : σ → Prop} {P : σ → ι → Prop} {delim : α}
  {stream input chunk line : List α} {n i : Nat}

theorem First.append (h : First delim input i) (chunk : List α) :
    First delim (input ++ chunk) i := by
  obtain ⟨line, rest, rfl, hi, hd⟩ := h
  exact ⟨line, rest ++ chunk, by simp, hi, hd⟩

theorem First.after (h : First delim input i) (hl : delim ∉ line) :
    First delim (line ++ input) (line.length + i) := by
  obtain ⟨line', rest, rfl, rfl, hd⟩ := h
  exact ⟨line ++ line', rest, by simp, by simp, by simp [hl, hd]⟩

theorem First.lt (h : First delim input i) : i < input.length := by
  obtain ⟨line, rest, rfl, rfl, -⟩ := h
  simp

theorem First.answers (h : First delim input i) :
    Answers delim input (input.drop (i + 1)) (input.take (i + 1)) none := by
  obtain ⟨line, rest, rfl, rfl, hd⟩ := h
  have htake : (line ++ delim :: rest).take (line.length + 1) = line ++ [delim] := by
    rw [List.take_length_add_append]
    rfl
  refine ⟨(List.take_append_drop _ _).symm, fun _ => ⟨rfl, line, htake, hd⟩, fun hn => ?_⟩
  simp at hn

theorem Answers.of_missed (hd : delim ∉ input) (err : ReadErr) :
    Answers delim input (input.drop input.length) (input.take input.length) (some err) := by
  rw [List.drop_length, List.take_length]
  exact ⟨(List.append_nil input).symm, fun h => absurd h hd, fun _ => ⟨rfl, rfl⟩⟩

theorem Answers.append (h : Answers delim stream input line none) (chunk : List α) :
    Answers delim (stream ++ chunk) (input ++ chunk) line none := by
  have hmem : delim ∈ stream := by
    by_contra hn
    simpa using (h.missed hn).1
  refine ⟨by rw [h.consumed, List.append_assoc], fun _ => h.found hmem, fun hn => ?_⟩
  exact absurd (List.mem_append_left chunk hmem) hn

theorem Searched.append (h : Searched delim stream input n) (chunk : List α) :
    Searched delim (stream ++ chunk) (input ++ chunk) n := by
  have hle := h.le
  refine ⟨by rw [h.stream], by rw [List.length_append]; omega, ?_⟩
  rw [List.take_append_of_le_length hle]
  exact h.clean

theorem At.append {s t : σ} {p : Pc α} (h : At W delim s stream input p)
    (hreader : W.reader t = W.reader s)
    (hclosed : (W.inbox s).closing ≠ .none → (W.inbox t).closing ≠ .none ∧ chunk = []) :
    At W delim t (stream ++ chunk) (input ++ chunk) p := by
  cases p with
  | loop n | len n => exact Searched.append h chunk
  | wait n => exact ⟨h.1.append chunk, by rw [hreader]; exact h.2⟩
  | index n l =>
    exact ⟨h.1.append chunk, by rw [List.length_append]; exact Nat.le_add_right_of_le h.2⟩
  | next i | take i => exact ⟨by rw [h.1], h.2.append chunk⟩
  | nextWait i => exact ⟨⟨by rw [h.1.1], h.1.2.append chunk⟩, by rw [hreader]; exact h.2⟩
  | drain err =>
    obtain ⟨hc, rfl⟩ := hclosed h.2.2
    rw [List.append_nil, List.append_nil]
    exact ⟨h.1, h.2.1, hc⟩
  | drainTake m err =>
    obtain ⟨hc, rfl⟩ := hclosed h.2.2.1
    rw [List.append_nil, List.append_nil]
    exact ⟨h.1, h.2.1, hc, h.2.2.2⟩
  | returned line err =>
    cases err with
    | none => exact ⟨h.1.append chunk, nofun⟩
    | some err =>
      obtain ⟨hc, rfl⟩ := hclosed (h.2 rfl)
      rw [List.append_nil, List.append_nil]
      exact ⟨h.1, fun _ => hc⟩

namespace Running

variable {s s' : State σ α}

theorem call {t : σ} (h : Running W I delim s) (hW : Lawful W I P)
    (ht : W.step s.source (W.call n) = some t) {p : Pc α}
    (hp : W.reader t = some (.entry n) → At W delim t s.stream s.input p) :
    Running W I delim { s with source := t, pc := p } := by
  obtain ⟨hinv, hreader, hlen⟩ := hW.call h.inv ht
  exact ⟨hinv, h.length.trans hlen.symm, hp hreader⟩

theorem read {stay : Pc α} {done : Option ReadErr → Pc α} (h : Running W I delim s)
    (hW : Lawful W I P) (hs : reads W s stay done = some s')
    (hstay : ∀ t w w' b, W.reader s.source = some w →
      waitRead (W.inbox s.source) w = some (b, some w') → W.reader t = some w' →
      At W delim t s.stream s.input stay)
    (hdone : ∀ t w b, W.reader s.source = some w → waitRead (W.inbox s.source) w = some (b, none) →
      ((W.inbox s.source).closing ≠ .none → (W.inbox t).closing ≠ .none) →
      At W delim t s.stream s.input (done (result w))) : Running W I delim s' := by
  unfold reads at hs
  split at hs
  · cases hs
  rename_i w hw
  obtain ⟨t, ht, rfl⟩ := Option.map_eq_some_iff.mp hs
  obtain ⟨hinv, ⟨b, hb⟩, hlen⟩ := hW.read h.inv hw ht
  refine ⟨hinv, h.length.trans hlen.symm, ?_⟩
  cases hr : W.reader t with
  | none =>
    rw [hr] at hb
    exact hdone t w b hw hb fun hc => hW.closed h.inv hc ht
  | some w' =>
    rw [hr] at hb
    exact hstay t w w' b hw hb hr

theorem take {m : Nat} {err : Option ReadErr} (h : Running W I delim s) (hW : Lawful W I P)
    (hs : takes W s m err = some s')
    (ha : Answers delim s.stream (s.input.drop m) (s.input.take m) err)
    (hc : err.isSome → (W.inbox s.source).closing ≠ .none) : Running W I delim s' := by
  obtain ⟨t, ht, rfl⟩ := Option.map_eq_some_iff.mp hs
  obtain ⟨hinv, hlen⟩ := hW.consume h.inv ht
  refine ⟨hinv, ?_, ha, fun he => hW.closed h.inv (hc he) ht⟩
  rw [List.length_drop, h.length, hlen]

end Running

variable [DecidableEq α]

theorem First.of_idxOf (h : input.idxOf? delim = some i) : First delim input i := by
  obtain ⟨hlt, hget, hbefore⟩ := List.idxOf?_eq_some_iff.mp h
  refine ⟨input.take i, input.drop (i + 1), ?_, ?_, fun hm => ?_⟩
  · rw [← hget, ← List.drop_eq_getElem_cons hlt, List.take_append_drop]
  · rw [List.length_take]
    omega
  · obtain ⟨q, hq, hd⟩ := List.mem_iff_getElem.mp hm
    rw [List.getElem_take] at hd
    exact hbefore q (by rw [List.length_take] at hq; omega) hd

theorem indexByte_eq_some
    (hs : Searched delim stream input n) (h : indexByte input delim n = some i) :
    First delim input i := by
  obtain ⟨j, hj, rfl⟩ := Option.map_eq_some_iff.mp h
  have hf := (First.of_idxOf hj).after hs.clean
  rwa [List.take_append_drop, List.length_take, Nat.min_eq_left hs.le] at hf

theorem indexByte_eq_none
    (hs : Searched delim stream input n) (h : indexByte input delim n = none) :
    delim ∉ input := by
  have hdrop : delim ∉ input.drop n := List.idxOf?_eq_none_iff.mp (Option.map_eq_none_iff.mp h)
  rw [← List.take_append_drop n input, List.mem_append, not_or]
  exact ⟨hs.clean, hdrop⟩

namespace Running

variable {s s' : State σ α}

theorem other {a : ι} (h : Running W I delim s) (hW : Lawful W I P) (ha : P s.source a)
    (hs : step W delim s (.other a chunk) = some s') : Running W I delim s' := by
  obtain ⟨⟨ho, hlen⟩, hs⟩ := Option.ite_none_right_eq_some.mp hs
  obtain ⟨t, ht, rfl⟩ := Option.map_eq_some_iff.mp hs
  obtain ⟨hinv, hreader, hinbox⟩ := hW.other h.inv ha ho ht
  refine ⟨hinv, ?_, h.stands.append hreader fun hc => ⟨hW.closed h.inv hc ht, ?_⟩⟩
  · rw [List.length_append, h.length, hinbox, hlen]
  · rw [← List.length_eq_zero_iff, hlen]
    exact hW.last h.inv hc

theorem run (h : Running W I delim s) (hW : Lawful W I P) (hs : run W delim s = some s') :
    Running W I delim s' := by
  have hat := h.stands
  unfold Until.run at hs
  cases hp : s.pc with
  | loop n =>
    rw [hp] at hat
    simp only [hp] at hs
    obtain ⟨t, ht, rfl⟩ := Option.map_eq_some_iff.mp hs
    refine h.call hW ht fun hr => ⟨hat, fun w hw => ?_⟩
    obtain rfl := Option.some.inj (hr.symm.trans hw)
    rfl
  | wait n =>
    rw [hp] at hat
    simp only [hp] at hs
    refine h.read hW hs (fun t w w' b hw hb hr => ⟨hat.1, fun v hv => ?_⟩) fun t w b hw hb hc => ?_
    · obtain rfl := Option.some.inj (hr.symm.trans hv)
      rw [← hat.2 w hw]
      exact waitRead_size hb
    · cases hres : result w with
      | none => exact hat.1
      | some err =>
        cases w with
        | clear m e =>
          obtain rfl : e = some err := hres
          obtain ⟨hclosing, hlt⟩ := hW.short h.inv hw
          have hsize : m = n + 1 := hat.2 _ hw
          have hall : s.input.take n = s.input := List.take_of_length_le (by rw [h.length]; omega)
          exact ⟨hat.1.stream, hall ▸ hat.1.clean, hc hclosing⟩
        | _ => cases hres
  | len n =>
    rw [hp] at hat
    simp only [hp] at hs
    cases hs
    exact ⟨h.inv, h.length, hat, Nat.le_of_eq h.length.symm⟩
  | index n l =>
    rw [hp] at hat
    simp only [hp] at hs
    split at hs <;> cases hs
    · rename_i hnone
      have hd := indexByte_eq_none hat.1 hnone
      exact ⟨h.inv, h.length, hat.1.stream, hat.2, fun hm => hd (List.mem_of_mem_take hm)⟩
    · rename_i i hsome
      exact ⟨h.inv, h.length, hat.1.stream, indexByte_eq_some hat.1 hsome⟩
  | next i =>
    rw [hp] at hat
    simp only [hp] at hs
    obtain ⟨t, ht, rfl⟩ := Option.map_eq_some_iff.mp hs
    refine h.call hW ht fun hr => ⟨hat, fun w hw => ?_⟩
    exact Option.some.inj (hw.symm.trans hr)
  | nextWait i =>
    rw [hp] at hat
    simp only [hp] at hs
    have hlt := hat.1.2.lt
    rw [h.length] at hlt
    refine h.read hW hs (fun t w w' b hw hb hr => ?_) fun t w b hw hb hc => ?_
    · obtain rfl := hat.2 w hw
      simp [waitRead, show i + 1 ≤ (W.inbox s.source).length from hlt] at hb
    · obtain rfl := hat.2 w hw
      exact hat.1
  | take i =>
    rw [hp] at hat
    simp only [hp] at hs
    refine h.take hW hs ?_ (by simp)
    rw [hat.1]
    exact hat.2.answers
  | drain err =>
    rw [hp] at hat
    simp only [hp] at hs
    cases hs
    exact ⟨h.inv, h.length, hat.1, hat.2.1, hat.2.2, h.length.symm⟩
  | drainTake m err =>
    rw [hp] at hat
    simp only [hp] at hs
    obtain ⟨h1, h2, h3, rfl⟩ := hat
    refine h.take hW hs ?_ fun _ => h3
    rw [h1]
    exact .of_missed h2 err
  | returned line err => simp [hp] at hs

end Running

theorem running_of_reach (hW : Lawful W I P) {s₀ : σ} (h₀ : I s₀) {s : State σ α}
    (hlen : input.length = (W.inbox s₀).length)
    (hr : Reach (step W delim) (fun s a => a.Meets P s) (start s₀ input) s) :
    Running W I delim s := by
  refine hr.invariant (I := Running W I delim) ⟨h₀, hlen, rfl, Nat.zero_le _, by simp⟩ ?_
  intro s a s' h ha hs
  cases a with
  | other a chunk => exact h.other hW ha hs
  | run => exact h.run hW hs

end

end Netpoll.Input.Until
