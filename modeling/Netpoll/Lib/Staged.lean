import Mathlib.Data.List.Infix

/-! Queues with two parts: items are staged, and those that have been committed are taken in the
order in which they have been staged.  The front of a queue can be split off as a queue of its own,
and a whole queue can be staged in another one. -/

namespace Netpoll.Lib.Staged

variable {α : Type*}

structure Queue (α : Type*) where
  ready : List α
  staged : List α

inductive Call (α : Type*)
  | stage (xs : List α)
  | put (k : Nat) (x : α)
  | trim (n : Int)
  | commit
  | take (n : Int)
  | look (n : Int)
  | takeTo (x : α)
  | idle
  | clear

/-- The items that a call returns, or `none` if it is refused, and the queue afterwards. -/
def Queue.run [DecidableEq α] (q : Queue α) : Call α → Option (List α) × Queue α
  | .stage xs => (some xs, { q with staged := q.staged ++ xs })
  | .put k x => (some [], { q with staged := q.staged.set k x })
  | .trim n => if n < 0 then (none, q) else (some [], { q with staged := q.staged.take n.toNat })
  | .commit => (some [], ⟨q.ready ++ q.staged, []⟩)
  | .take n =>
    if n ≤ q.ready.length then (some (q.ready.take n.toNat),
      { q with ready := q.ready.drop n.toNat })
    else (none, q)
  | .look n => if n ≤ q.ready.length then (some (q.ready.take n.toNat), q) else (none, q)
  | .takeTo x =>
    match q.ready.idxOf? x with
    | some i => (some (q.ready.take (i + 1)), { q with ready := q.ready.drop (i + 1) })
    | none => (none, q)
  | .idle => (some [], q)
  | .clear => (some [], ⟨[], []⟩)

inductive Request (α : Type*)
  | new
  | call (i : Nat) (c : Call α)
  | split (i : Nat) (n : Int)
  | append (i j : Nat)
  | outside (xs : List α)

def serve [DecidableEq α] (qs : List (Queue α)) :
    Request α → Option (Option (List α) × List (Queue α))
  | .new => some (some [], qs ++ [⟨[], []⟩])
  | .call i c => do
    let q ← qs[i]?
    return ((q.run c).1, qs.set i (q.run c).2)
  | .split i n => do
    let q ← qs[i]?
    if n ≤ q.ready.length then
      return (some [], qs.set i { q with ready := q.ready.drop n.toNat } ++
        [⟨q.ready.take n.toNat, []⟩])
    else return (none, qs)
  | .append i j => do
    let q ← qs[i]?
    let d ← qs[j]?
    return (some [], (qs.set i { q with staged := q.staged ++ (d.ready ++ d.staged) }).set j
      ⟨[], []⟩)
  | .outside xs => some (some xs, qs)

def Queue.commits (q : Queue α) : Call α → List α
  | .commit => q.staged
  | _ => []

def Call.takes (r : Option (List α)) : Call α → List α
  | .take _ | .takeTo _ => r.getD []
  | _ => []

def Queue.front (q : Queue α) (n : Int) : List α :=
  if n ≤ q.ready.length then q.ready.take n.toNat else []

def commits (qs : List (Queue α)) (i : Nat) : Request α → List α
  | .call j c => if j = i then (qs[j]?).elim [] (·.commits c) else []
  | .split j n => if i = qs.length then (qs[j]?).elim [] (·.front n) else []
  | _ => []

def takes (qs : List (Queue α)) (i : Nat) (r : Option (List α)) : Request α → List α
  | .call j c => if j = i then c.takes r else []
  | .split j n => if j = i then (qs[j]?).elim [] (·.front n) else []
  | .append _ j => if j = i then (qs[j]?).elim [] (·.ready) else []
  | _ => []

def Call.leaves : Call α → Bool
  | .take _ | .takeTo _ | .look _ | .idle => true
  | _ => false

def Request.leaves (i : Nat) : Request α → Bool
  | .call j c => j != i || c.leaves
  | .append j k => j != i && k != i
  | _ => true

/-- Of the items `sent` that have been committed to queue `i`, `got` have been taken, and the others
can still be taken. -/
def Conserved (qs : List (Queue α)) (i : Nat) (sent got : List α) : Prop :=
  sent = got ++ (qs[i]?).elim [] (·.ready)

section

variable [DecidableEq α] {qs qs' : List (Queue α)} {q : Queue α} {i j : Nat} {c : Call α}
  {r : Option (List α)} {req : Request α} {sent got : List α}

theorem Queue.run_ready (hc : c ≠ .clear) :
    q.ready ++ q.commits c = c.takes (q.run c).1 ++ (q.run c).2.ready := by
  cases c with
  | clear => exact absurd rfl hc
  | commit => rfl
  | take n => by_cases hn : n ≤ q.ready.length <;> simp [Queue.run, Call.takes, Queue.commits, hn]
  | takeTo x => cases hi : q.ready.idxOf? x <;> simp [Queue.run, Call.takes, Queue.commits, hi]
  | look n => by_cases hn : n ≤ q.ready.length <;> simp [Queue.run, Call.takes, Queue.commits, hn]
  | trim n => by_cases hn : n < 0 <;> simp [Queue.run, Call.takes, Queue.commits, hn]
  | stage xs | put k x | idle => simp [Queue.run, Call.takes, Queue.commits]

theorem getElem?_snoc_of_lt {β : Type*} {l : List β} {x : β} (hi : l.length < i) :
    (l ++ [x])[i]? = none := by
  refine List.getElem?_eq_none ?_
  rw [List.length_append, List.length_singleton]
  omega

theorem Conserved.serve (hb : Conserved qs i sent got) (hc : req ≠ .call i .clear)
    (hs : serve qs req = some (r, qs')) :
    Conserved qs' i (sent ++ commits qs i req) (got ++ takes qs i r req) := by
  simp only [Conserved] at hb ⊢
  subst hb
  cases req with
  | new =>
    cases hs
    rcases Nat.lt_trichotomy i qs.length with hlt | rfl | hgt
    · simp [commits, takes, List.getElem?_append_left hlt]
    · simp [commits, takes]
    · simp [commits, takes, hgt.le, getElem?_snoc_of_lt hgt]
  | outside xs =>
    cases hs
    simp [commits, takes]
  | call j c =>
    obtain ⟨q, hq, hs⟩ := Option.bind_eq_some_iff.mp hs
    cases hs
    by_cases hj : j = i
    · subst hj
      obtain ⟨hlt, rfl⟩ := List.getElem?_eq_some_iff.mp hq
      have hrun := qs[j].run_ready (c := c) fun he => hc (by rw [he])
      simp [commits, takes, hlt, hrun]
    · simp [commits, takes, hj]
  | split j n =>
    obtain ⟨q, hq, hs⟩ := Option.bind_eq_some_iff.mp hs
    obtain ⟨hlt, rfl⟩ := List.getElem?_eq_some_iff.mp hq
    by_cases hn : n ≤ qs[j].ready.length
    · rw [if_pos hn] at hs
      cases hs
      by_cases hj : j = i
      · subst hj
        simp [commits, takes, Queue.front, hlt, hn, Nat.ne_of_lt hlt, List.getElem?_append_left]
      · rcases Nat.lt_trichotomy i qs.length with hi | rfl | hi
        · simp [commits, takes, hj, hi, Nat.ne_of_lt hi, List.getElem?_append_left]
        · simp [commits, takes, Queue.front, hj, hlt, hn]
        · rw [getElem?_snoc_of_lt (by simpa using hi)]
          simp [commits, takes, hj, hi.le, Nat.ne_of_gt hi]
    · rw [if_neg hn] at hs
      cases hs
      simp [commits, takes, Queue.front, hlt, hn]
  | append k j =>
    obtain ⟨q, hq, hs⟩ := Option.bind_eq_some_iff.mp hs
    obtain ⟨d, hd, hs⟩ := Option.bind_eq_some_iff.mp hs
    cases hs
    by_cases hj : j = i
    · subst hj
      obtain ⟨hlt, rfl⟩ := List.getElem?_eq_some_iff.mp hd
      simp [commits, takes, hlt]
    · by_cases hk : k = i
      · subst hk
        obtain ⟨hlt, rfl⟩ := List.getElem?_eq_some_iff.mp hq
        simp [commits, takes, hj, hlt]
      · simp [commits, takes, hj, hk]

omit [DecidableEq α] in
theorem commits_of_leaves (hr : req.leaves i) (hi : i < qs.length) : commits qs i req = [] := by
  cases req with
  | call j c =>
    by_cases hj : j = i
    · cases hq : qs[j]? with
      | none => simp [commits, hq]
      | some q => cases c <;> simp_all [commits, Request.leaves, Call.leaves, Queue.commits]
    · simp [commits, hj]
  | split j n => simp [commits, Nat.ne_of_lt hi]
  | _ => rfl

theorem serve_staged (hr : req.leaves i) (hi : i < qs.length) (hs : serve qs req = some (r, qs')) :
    (qs'[i]?).map (·.staged) = (qs[i]?).map (·.staged) := by
  have hset : ∀ {j : Nat} {q q' : Queue α}, qs[j]? = some q → q'.staged = q.staged →
      ((qs.set j q')[i]?).map (·.staged) = (qs[i]?).map (·.staged) := fun {j q q'} hq he => by
    by_cases hj : j = i
    · subst hj
      rw [List.getElem?_set_self hi, hq, Option.map_some, Option.map_some, he]
    · rw [List.getElem?_set_ne hj]
  cases req with
  | new =>
    cases hs
    rw [List.getElem?_append_left hi]
  | outside xs =>
    cases hs
    rfl
  | call j c =>
    obtain ⟨q, hq, hs⟩ := Option.bind_eq_some_iff.mp hs
    cases hs
    by_cases hj : j = i
    · refine hset hq ?_
      have hc : c.leaves := by simpa [Request.leaves, hj] using hr
      cases c with
      | take n => by_cases hn : n ≤ q.ready.length <;> simp [Queue.run, hn]
      | takeTo x => cases hi : q.ready.idxOf? x <;> simp [Queue.run, hi]
      | look n => by_cases hn : n ≤ q.ready.length <;> simp [Queue.run, hn]
      | idle => rfl
      | _ => cases hc
    · rw [List.getElem?_set_ne hj]
  | split j n =>
    obtain ⟨q, hq, hs⟩ := Option.bind_eq_some_iff.mp hs
    by_cases hn : n ≤ q.ready.length
    · rw [if_pos hn] at hs
      cases hs
      rw [List.getElem?_append_left (by rwa [List.length_set])]
      exact hset hq rfl
    · rw [if_neg hn] at hs
      cases hs
      rfl
  | append j k =>
    obtain ⟨q, hq, hs⟩ := Option.bind_eq_some_iff.mp hs
    obtain ⟨d, hd, hs⟩ := Option.bind_eq_some_iff.mp hs
    cases hs
    obtain ⟨hj, hk⟩ : j ≠ i ∧ k ≠ i := by simpa [Request.leaves] using hr
    rw [List.getElem?_set_ne hk, List.getElem?_set_ne hj]

end

end Netpoll.Lib.Staged
