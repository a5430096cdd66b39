import Netpoll.Connection.InputStream
import Netpoll.Connection.Release

/-! What the input stream takes for one step, a goroutine does in `connection.Release` between
`operator.do` and `operator.done`. -/

namespace Netpoll.Release

open Netpoll.Lib.Transition
open Netpoll.InputStream (Side)
open Netpoll.Nocopy (Slice Heap LinkBuffer Parts Buffer Queued Booked Config)
open Netpoll.Poll (Cache)

variable {x : Conn} {side : Side} {c : Cache} {h h' : Heap} {b b' : LinkBuffer} {p : Parts}
  {U A B : List Nat} {K : List Slice} {P : Nat → Prop} {input : InputBuffer}
  {first r n t k j s m : Nat}

/-- The nodes of the chain are numbered from `first` on. -/
structure Numbers (input : InputBuffer) (b : LinkBuffer) (h : Heap) (p : Parts) (first : Nat) :
    Prop where
  length : b.length = input.length
  head : input.head = some first
  read : input.read = some (first + p.old.length)
  flush : input.flush = some (first + (p.old ++ p.front).length)
  write : input.write = some input.last
  last : input.last + 1 = first + p.all.length
  node : ∀ t k, p.all[t]? = some k → input.nodes (first + t) =
    ⟨(h.nodes k).buf.len, (h.nodes k).off⟩

theorem exists_numbers (hb : Buffer h b p) (hback : p.back ≠ []) :
    ∃ input, Numbers input b h p 0 := by
  have hpos : 0 < p.all.length := by
    have := List.length_pos_iff.mpr hback
    simp only [Parts.all, List.length_append]
    omega
  refine ⟨⟨(h.content p.live).length, some 0, some p.old.length, some (p.old ++ p.front).length,
    some (p.all.length - 1), p.all.length - 1,
    fun t => p.all[t]?.elim ⟨0, 0⟩ fun k => ⟨(h.nodes k).buf.len, (h.nodes k).off⟩⟩,
    hb.length, rfl, ?_, ?_, rfl, ?_, ?_⟩
  · simp
  · simp
  · simp only
    omega
  · intro t k ht
    simp [ht]

theorem Numbers.next (hN : Numbers input b h p first) (ht : t + 1 < p.all.length) :
    input.next (first + t) = some (first + (t + 1)) := by
  have := hN.last
  rw [InputBuffer.next, if_pos (by omega)]
  rfl

abbrev Alone (c : Cache) : Conn → Conn → Prop :=
  Relation.ReflTransGen fun x y => x.run c = some (c, y)

theorem Numbers.sum_alone (hN : Numbers x.input b h p first)
    (hr : (p.front ++ p.back).head? = some r) (hold : p.old = A ++ B) :
    Alone c { x with release := .sum (some (first + A.length)) s }
      { x with release := .bound (s + h.filled B + (h.nodes r).buf.len) } := by
  obtain ⟨L, hL⟩ := List.head?_eq_some_iff.mp hr
  have hall : p.all = A ++ (B ++ r :: (L ++ p.spare)) := by simp [Parts.all, hold, hL]
  induction B generalizing A s with
  | nil =>
    have hat : p.all[A.length]? = some r := by simp [hall]
    refine .single ?_
    simp [Conn.run, hN.read, hold, hN.node _ _ hat, Heap.filled]
  | cons k B ih =>
    have hat : p.all[A.length]? = some k := by simp [hall]
    have hlt : A.length + 1 < p.all.length := by
      simp only [hall, List.length_append, List.length_cons]
      omega
    have hsum : s + h.filled (k :: B) = s + (h.nodes k).buf.len + h.filled B := by
      simp [Heap.filled, Nat.add_assoc]
    have hrest := ih (A := A ++ [k]) (s := s + (h.nodes k).buf.len) (by simp [hold])
      (by simp [hall])
    rw [hsum]
    refine .head ?_ hrest
    simp [Conn.run, hN.read, hold, hN.node _ _ hat, hN.next hlt]

theorem Numbers.link (hN : Numbers input b h p first) (hnew : Nocopy.New h h' j)
    (hsame : ∀ k ∈ p.all, Nocopy.Linked h h' k) (hspare : p.spare = []) :
    Numbers { input.link with flush := input.link.write }
      { b with write := some j, flush := some j } h' ⟨p.old, p.front ++ p.back, [j], []⟩ first := by
  have hlast := hN.last
  have hall : (⟨p.old, p.front ++ p.back, [j], []⟩ : Parts).all = p.all ++ [j] := by
    simp [Parts.all, hspare]
  refine ⟨hN.length, hN.head, hN.read, ?_, rfl, ?_, fun t k ht => ?_⟩
  · change some (input.last + 1) = _
    rw [hlast, Parts.all, hspare, List.append_nil, List.append_assoc]
  · change input.last + 1 + 1 = _
    rw [hall, hlast, List.length_append, List.length_singleton, Nat.add_assoc]
  · rw [hall] at ht
    by_cases htl : t < p.all.length
    · rw [List.getElem?_append_left htl] at ht
      obtain ⟨next, hk⟩ := hsame k (List.mem_of_getElem? ht)
      have hne : first + t ≠ input.last + 1 := by omega
      simp [InputBuffer.link, hne, hN.node t k ht, hk]
    · obtain rfl : t = p.all.length := by
        have := (List.getElem?_eq_some_iff.mp ht).1
        rw [List.length_append, List.length_singleton] at this
        omega
      obtain rfl : j = k := by simpa using ht
      simp [InputBuffer.link, ← hlast, hnew.len, hnew.off]

theorem Numbers.relen_alone (hN : Numbers x.input b h p first)
    (hr : (p.front ++ p.back).head? = some r) (hpc : x.release = .calc)
    (hs : h.filled p.old + (h.nodes r).buf.len = s) (c : Cache) :
    Alone c x { x with
      maxSize :=
        if x.maxSize < (if mallocMax < s then mallocMax else s) then
          if mallocMax < s then mallocMax else s
        else x.maxSize
      release := .relen } := by
  have hsum := hN.sum_alone (c := c) (A := []) (s := 0) hr rfl
  rw [Nat.zero_add, hs] at hsum
  refine .head ?_ (.tail hsum rfl)
  simp [Conn.run, hpc, hN.head]

theorem release_alone (hQ : Queued h b p U K P) (hk : Booked h p n [])
    (hN : Numbers x.input b h p first) (hmax : x.maxSize = side.maxSize) (hpc : x.release = .calc)
    (c : Cache) (cfg : Config) :
    ∃ side' b' h' p' input, side.release cfg b h = some (side', b', h') ∧
      Numbers input b' h' p' first ∧
      Alone c x { x with maxSize := side'.maxSize, input := input, release := .done } := by
  obtain ⟨r, hr, hcalc⟩ := hQ.calcMaxSize hk
  generalize hs : h.filled p.old + (h.nodes r).buf.len = s at hcalc
  have hrelen := hN.relen_alone hr hpc hs c
  rw [hmax] at hrelen
  generalize hm : (if side.maxSize < (if mallocMax < s then mallocMax else s) then
      if mallocMax < s then mallocMax else s else side.maxSize) = m at hrelen
  have hrel {y : LinkBuffer × Heap}
      (hy : (if b.length = 0 then b.resetTail h cfg m else some (b, h)) = some y) :
      side.release cfg b h = some ({ side with maxSize := m }, y) := by
    have hM : Nocopy.mallocMax = mallocMax := rfl
    simp only [Side.release, hcalc, Option.bind_eq_bind, Option.bind_some, hM, hm, Option.pure_def]
    split_ifs at hy ⊢
    · rw [hy]
      rfl
    · rw [← Option.some.inj hy]
  have hlen := hN.length
  by_cases h0 : b.length = 0
  · have hreset : Alone c x { x with maxSize := m, release := .resetTail } :=
      .tail hrelen (by simp [Conn.run, show x.input.length = 0 by omega])
    by_cases hsmall : m ≤ pagesize
    · refine ⟨{ side with maxSize := m }, b, h, p, x.input, hrel ?_, hN,
        .tail hreset (by simp [Conn.run, hsmall])⟩
      rw [if_pos h0]
      exact if_pos hsmall
    · obtain ⟨j, h', htail, hsame, hnew, -⟩ :=
        hQ.resetTail_large hk cfg (Nat.not_le.mp hsmall)
      refine ⟨{ side with maxSize := m }, _, h', _, _, hrel ?_,
        hN.link hnew hsame hk.spare, .tail hreset ?_⟩
      · rw [if_pos h0]
        exact htail
      · simp [Conn.run, hsmall, hN.write]
  · refine ⟨{ side with maxSize := m }, b, h, p, x.input, hrel (if_neg h0), hN,
      .tail hrelen ?_⟩
    simp [Conn.run, show x.input.length ≠ 0 by omega]

theorem reach_alone {opSize i : Nat} {w : World} {y z : Conn} (ha : Alone w.poll.shared y z)
    (hy : w.conns i = y) :
    ∃ w', Reach (step opSize) (fun _ a => a = .run i) w w' ∧ w'.poll = w.poll ∧
      w'.conns i = z := by
  refine Reach.follows (fun (w' : World) x => w'.poll = w.poll ∧ w'.conns i = x) ha ⟨rfl, hy⟩ ?_
  rintro w' x y ⟨hpoll, hself⟩ hn
  refine ⟨.run i, { w'.setConn i y with poll := ⟨w.poll.shared, w'.poll.pc⟩ }, rfl, ?_, ?_, ?_⟩
  · simp [step, hself, hpoll, hn]
  · rw [hpoll]
  · simp [World.setConn]

/-- What `Release` does between `operator.do` and `operator.done` is the step of the input stream,
if nobody else moves meanwhile. -/
theorem release_refines {q : InputStream.System} {l : Nocopy.Layout} {size i : Nat}
    (hL : InputStream.Live size q l P) (hx : q.side i = some side) (hn : side.booked = none)
    (cfg : Config) (opSize : Nat) :
    ∃ b p, q.world.bufs[i]? = some b ∧ (∃ input, Numbers input b q.world.heap p 0) ∧
      ∀ (w : World) (r first : Nat), Numbers (w.conns r).input b q.world.heap p first →
        (w.conns r).maxSize = side.maxSize → (w.conns r).release = .calc →
        ∃ side' b' h' p' w', q.exec cfg size (.release i) = some (.done, q.put i (side', b', h')) ∧
          Reach (step opSize) (fun _ a => a = .run r) w w' ∧ w'.poll = w.poll ∧
          (w'.conns r).release = .done ∧ (w'.conns r).maxSize = side'.maxSize ∧
          Numbers (w'.conns r).input b' h' p' first := by
  obtain ⟨b, p, rest, hb, -, hQ, hh⟩ := hL.get hx
  obtain ⟨n, hk⟩ := hh.booked
  rw [(Side.len_none hn).1, LinkBuffer.booking_zero] at hQ
  rw [(Side.len_none hn).2.1] at hk
  refine ⟨b, p, hb, exists_numbers hQ.buffer hk.back_ne, fun w r first hN hmax hpc => ?_⟩
  obtain ⟨side', b', h', p', input, hrel, hN', ha⟩ :=
    release_alone hQ hk hN hmax hpc w.poll.shared cfg
  obtain ⟨w', hr, hpoll, hconns⟩ := reach_alone (i := r) ha rfl
  refine ⟨side', b', h', p', w', ?_, hr, hpoll, ?_⟩
  · simp [InputStream.System.exec, hx, hb, hrel]
  · rw [hconns]
    exact ⟨rfl, rfl, hN'⟩

end Netpoll.Release
