import Netpoll.Nocopy.Refines

namespace Netpoll.Nocopy

open Netpoll.Lib Netpoll.Lib.Memory Netpoll.Lib.Staged

variable {h h' : Heap} {b b' : LinkBuffer} {p p' : Parts} {U : List Nat} {K : List Slice}
  {P P' : Nat → Prop} {c i j k m n : Nat} {s : Slice} {l : List Addr} {cfg : Config} {a : Act}
  {o : Out}

def Act.reading : Act → Bool
  | .next _ | .peek _ | .skip _ | .readBinary _ | .readString _ | .readByte | .readUntil _
  | .release => true
  | _ => false

namespace LinkBuffer

/-- The buffer with `n` bytes more counted as given to a writer: `book` counts none of those that it
gives. -/
def booking (b : LinkBuffer) (n : Nat) : LinkBuffer := { b with mallocSize := b.mallocSize + n }

@[simp] theorem booking_zero : b.booking 0 = b := by simp [booking]

theorem isSingleNode_booking :
    (b.booking n).isSingleNode h m = (b.isSingleNode h m).map fun x => (x.1, x.2.booking n) := by
  by_cases hm : m = 0
  · simp [isSingleNode, hm]
  · simp [isSingleNode, hm, booking, Option.map_bind]

theorem single_booking : (b.booking n).single h m = b.single h m := by
  rw [single, isSingleNode_booking, Option.any_map, single]

theorem takeNext_booking :
    (b.booking n).takeNext h m = (b.takeNext h m).map fun x => (x.1, x.2.1.booking n, x.2.2) := by
  have hrec : (b.booking n).recalLen (-m) = (b.recalLen (-m)).booking n := rfl
  simp only [takeNext, hrec, isSingleNode_booking, Option.bind_eq_bind]
  cases (b.recalLen (-m)).isSingleNode h m with
  | none => rfl
  | some x =>
    simp only [Option.map_some, Option.bind_some]
    split_ifs <;> simp [Option.map_bind, booking]

theorem takePeek_booking :
    (b.booking n).takePeek h m = (b.takePeek h m).map fun x => (x.1, x.2.1.booking n, x.2.2) := by
  simp only [takePeek, isSingleNode_booking, Option.bind_eq_bind]
  cases b.isSingleNode h m with
  | none => rfl
  | some x =>
    simp only [Option.map_some, Option.bind_some]
    split_ifs <;> simp [Option.map_bind, booking, peekCache]

theorem readBinaryN_booking :
    (b.booking n).readBinaryN h cfg m = (b.readBinaryN h cfg m).map
    fun x => (x.1, x.2.1.booking n, x.2.2) := by
  have hrec : (b.booking n).recalLen (-m) = (b.recalLen (-m)).booking n := rfl
  simp only [readBinaryN, hrec, isSingleNode_booking, Option.bind_eq_bind]
  cases (b.recalLen (-m)).isSingleNode h m with
  | none => rfl
  | some x =>
    obtain ⟨single, b⟩ := x
    simp only [Option.map_some, Option.bind_some]
    by_cases hs : single
    · simp only [hs, if_true, Option.map_bind, Function.comp_def, booking]
      refine Option.bind_congr fun i _ => ?_
      split_ifs <;> simp [Option.map_bind]
    · simp [hs, Option.map_bind, booking]

theorem release_booking :
    (b.booking n).release h = (b.release h).map fun x => (x.1.booking n, x.2) := by
  simp [release, booking, Option.map_bind]

theorem next_booking {m : Int} :
    (b.booking n).next h m = (b.next h m).map fun x => (x.1, x.2.1.booking n, x.2.2) := by
  simp only [next, takeNext_booking, show (b.booking n).length = b.length from rfl]
  split_ifs <;> simp [Function.comp_def]

theorem takeSlice_booking :
    (b.booking n).takeSlice h cfg m = (b.takeSlice h cfg m).map
    fun x => (x.1, x.2.1.booking n, x.2.2) := by
  have hrec : (b.booking n).recalLen (-m) = (b.recalLen (-m)).booking n := rfl
  have hrel : ∀ (b : LinkBuffer) h read,
    ({ b.booking n with read := read } : LinkBuffer).release h =
      (({ b with read := read } : LinkBuffer).release h).map fun x => (x.1.booking n, x.2) :=
    fun b h read => release_booking (b := { b with read := read })
  simp only [takeSlice, hrec, isSingleNode_booking, Option.bind_eq_bind]
  cases (b.recalLen (-m)).isSingleNode h m with
  | none => rfl
  | some x =>
    simp only [Option.map_some, Option.bind_some, Option.map_bind, Function.comp_def,
      show (x.2.booking n).read = x.2.read from rfl]
    refine Option.bind_congr fun i _ => ?_
    split_ifs <;> simp [Option.map_bind, Option.bind_map, hrel]

theorem run_booking (ha : a.reading) :
    (b.booking n).run cfg h a = (b.run cfg h a).map fun x => (x.1, x.2.1.booking n, x.2.2) := by
  have hlen : (b.booking n).length = b.length := rfl
  cases a with
  | next m => simp [LinkBuffer.run, next_booking, Function.comp_def]
  | peek m =>
    simp only [LinkBuffer.run, peek, takePeek_booking, hlen]
    split_ifs <;> simp [Function.comp_def]
  | skip m =>
    simp only [LinkBuffer.run, skip, hlen]
    split_ifs <;> simp [Option.map_bind, recalLen, booking]
  | readBinary m =>
    simp only [LinkBuffer.run, readBinary, readBinaryN_booking, hlen]
    split_ifs <;> simp [Function.comp_def]
  | readString m =>
    simp only [LinkBuffer.run, readString, readBinaryN_booking, hlen]
    split_ifs <;> simp [Function.comp_def]
  | readByte =>
    simp only [LinkBuffer.run, readByte, hlen]
    split_ifs <;> simp [Option.map_bind, recalLen, booking]
  | readUntil d =>
    have hidx : (b.booking n).indexByte h d 0 = b.indexByte h d 0 := rfl
    simp only [LinkBuffer.run, readUntil, hidx, Option.bind_eq_bind]
    rcases b.indexByte h d 0 with _ | _ | k
    · rfl
    · rfl
    · simp [next_booking, Function.comp_def]
  | release => simp [LinkBuffer.run, release_booking, Function.comp_def]
  | _ => cases ha

theorem slice_booking {m : Int} :
    (b.booking n).slice h cfg m = (b.slice h cfg m).map fun x => (x.1, x.2.1.booking n, x.2.2) := by
  simp only [slice, takeSlice_booking, show (b.booking n).length = b.length from rfl]
  split_ifs <;> simp [Function.comp_def]

end LinkBuffer

/-- The bytes `l` wait for the flush, all of them in the last node `c`. -/
structure Booked (h : Heap) (p : Parts) (c : Nat) (l : List Addr) : Prop where
  last : p.back.getLast? = some c
  spare : p.spare = []
  later : h.later p.back = l
  pending : h.pending c = l
  bare : (h.nodes c).readonly → (h.nodes c).buf.cap = 0

namespace Booked

section

variable (hk : Booked h p c l)
include hk

theorem back_eq : p.back = p.back.dropLast ++ [c] := by
  obtain ⟨M, x, hM⟩ := exists_last (C := p.back) fun he => by simpa [he] using hk.last
  have hlast := hk.last
  rw [hM, List.getLast?_concat, Option.some.injEq] at hlast
  rw [hM, List.dropLast_concat, hlast]

theorem back_ne : p.back ≠ [] := by
  rw [hk.back_eq]
  simp

theorem mem_back : c ∈ p.back := List.mem_of_getLast? hk.last

theorem unflushed_content : h.unflushed p.back.dropLast = [] ∧ h.content p.back.tail = [] := by
  have hlen := Heap.length_later (h := h) (C := p.back)
  have hsplit := congrArg List.length (congrArg h.unflushed hk.back_eq)
  rw [Heap.unflushed_append, List.length_append, Heap.unflushed_cons, Heap.unflushed_nil,
    List.append_nil, hk.pending] at hsplit
  rw [hk.later] at hlen
  exact ⟨List.eq_nil_of_length_eq_zero (by omega), List.eq_nil_of_length_eq_zero (by omega)⟩

theorem unflushed : h.unflushed p.back = l := by
  rw [hk.back_eq, Heap.unflushed_append, hk.unflushed_content.1, Heap.unflushed_cons,
    Heap.unflushed_nil, hk.pending]
  simp

theorem staged : (h.queue p).staged = h.look l := by rw [Heap.queue, hk.later]

theorem pending_of_ne (hj : j ∈ p.back) (hne : j ≠ c) : h.pending j = [] := by
  rw [hk.back_eq, List.mem_append, List.mem_singleton] at hj
  exact List.flatMap_eq_nil_iff.mp hk.unflushed_content.1 j (hj.resolve_right hne)

theorem untouched (hu : Untouched h h' p p') : Booked h' p' c l where
  last := hu.back ▸ hk.last
  spare := hu.spare.trans hk.spare
  later := by rw [hu.back, hu.later, hk.later]
  pending := by
    obtain ⟨hbuf, hmal⟩ := (hu.node c hk.mem_back).1
    rw [← hk.pending, Heap.pending, Heap.pending, hbuf, hmal]
  bare hro := by
    obtain ⟨⟨hbuf, -⟩, hr⟩ := hu.node c hk.mem_back
    rw [hbuf]
    exact hk.bare (hr ▸ hro)

theorem of_bare (hn : ∀ k ∈ p.all, (h'.nodes k).bare = (h.nodes k).bare) : Booked h' p c l :=
  hk.untouched ⟨rfl, rfl, Heap.later_bare fun k hkb => hn k (Parts.mem_all_of_back hkb),
    fun k hkb =>
    ⟨.of_bare (hn k (Parts.mem_all_of_back hkb)),
      (Node.Like.of_bare (hn k (Parts.mem_all_of_back hkb))).readonly⟩⟩

end

end Booked

theorem Node.flushed_eq_self {node : Node} (hn : node.malloc ≤ node.buf.len) :
    node.flushed = node := by
  simp [Node.flushed, Nat.max_eq_left hn]

namespace Queued

theorem give {h₁ : Heap} {d : LinkBuffer} {L : List Nat} {w : Nat} (hQ : Queued h b p U K P)
    (hk : Booked h p c [])
    (hg : Grown h h₁ (b.booking n) (d.booking n) p.old p.front p.back p.spare L [] w U (b.kept ++ K)
      P)
    (hpk : d.cachePeek = b.cachePeek) (hro : (h₁.nodes w).readonly = false)
    (hpend : h₁.pending w = []) (hroom : (h₁.nodes w).malloc + n ≤ (h₁.nodes w).buf.cap) :
    ∃ s h' p', h₁.nodeMalloc w n = some (s, h') ∧ s.len = n ∧ Booked h' p' w s.cells ∧
      (∀ x ∈ s.cells, Loose h p.all [] x) ∧
      Served h h' b (d.booking n) p p' (.malloc n) U K P P (.stage (h'.bytes s)) (.bytes s) := by
  obtain ⟨hwr, hgave, hloose⟩ := Grown.reserved hQ.buffer hk.back_ne hg hro hroom
  refine ⟨_, _, _, Heap.nodeMalloc_eq hroom, rfl, ⟨hg.last, rfl, ?_, ?_, fun hr => ?_⟩, hloose,
    hQ.wrote hk.back_ne hwr (.of_mem hg.mem) hpk Heap.bytes_eq.symm rfl rfl⟩
  · rw [hwr.later, hk.later]
    rfl
  · rw [hgave, hpend]
    rfl
  · simp [Heap.reserve, hro] at hr

theorem book (hQ : Queued h b p U K P) (hk : Booked h p c []) (cfg : Config)
    {bookSize maxSize : Nat} (hbook : 0 < bookSize) (hmax : 0 < maxSize) :
    ∃ s b' h' p' c', b.book h cfg bookSize maxSize = some (s, b', h') ∧
      0 < s.len ∧ s.len ≤ bookSize ∧ Booked h' p' c' s.cells ∧ (∀ x ∈ s.cells, Loose h p.all [] x) ∧
      Served h h' b (b'.booking s.len) p p' (.malloc s.len) U K P P (.stage (h'.bytes s))
        (.bytes s) := by
  have hw : b.write = some c := hQ.buffer.rep.write.trans hk.last
  have hC : Rep h b p.old p.front (p.back.dropLast ++ [c]) p.spare := hk.back_eq ▸ hQ.buffer.rep
  have hs : Safe h (p.old ++ p.front ++ (p.back.dropLast ++ [c]) ++ p.spare ++ U) (b.kept ++ K)
    P := by
    rw [← hk.back_eq]
    exact hQ.safe
  by_cases hfull : (h.nodes c).buf.cap - (h.nodes c).malloc = 0
  · obtain ⟨j, h₁, h₂, hnew, hlink, hg, hn, hro, hcap, -⟩ :=
      tail_spec (b := b.booking (min maxSize bookSize)) (hC.of_eq rfl rfl rfl rfl) hs
        (hk.back_eq ▸ hQ.buffer.owned) hQ.viewed cfg maxSize
    rw [← hk.back_eq] at hg
    have hroom : (h₂.nodes j).malloc + min maxSize bookSize ≤ (h₂.nodes j).buf.cap := by
      have := hcap (by omega)
      rw [hn.malloc]
      omega
    have hro : (h₂.nodes j).readonly = false := by
      rw [hro, decide_eq_false_iff_not]
      omega
    obtain ⟨s, h', p', hma, hlen, hk', hloose, hS⟩ :=
      hQ.give (d := { b with write := some j }) hk hg rfl hro hn.pending hroom
    refine ⟨s, _, h', p', j, ?_, by omega, by omega, hk', hloose, hlen.symm ▸ hS⟩
    simp [LinkBuffer.book, hw, hfull, LinkBuffer.addTail, hnew, hlink, hma]
  · have hro : (h.nodes c).readonly = false := by
      by_contra hro
      have := hk.bare (by simpa using hro)
      omega
    have hg := Grown.refl (b := b.booking (min ((h.nodes c).buf.cap - (h.nodes c).malloc) bookSize))
      (hC.of_eq rfl rfl rfl rfl) hs (hk.back_eq ▸ hQ.buffer.owned_all) hro
    rw [← hk.back_eq] at hg
    nth_rewrite 2 [hk.spare] at hg
    obtain ⟨s, h', p', hma, hlen, hk', hloose, hS⟩ := hQ.give hk hg rfl hro hk.pending (by omega)
    refine ⟨s, b, h', p', c, ?_, by omega, by omega, hk', hloose, hlen.symm ▸ hS⟩
    simp [LinkBuffer.book, hw, hfull, hma]

section

variable (hQ : Queued h (b.booking m) p U K P) (hk : Booked h p c l)
include hQ hk

theorem real_mallocSize (hm : m = l.length) : b.mallocSize = 0 := by
  have hmal := hQ.buffer.mallocSize_eq
  rw [hk.unflushed, LinkBuffer.booking] at hmal
  simp only at hmal
  omega

theorem stopsAt (hn : n ≤ l.length) : StopsAt h p p.back.dropLast c [] n where
  back := hk.back_eq
  nodup := hQ.safe.nodup.of_append_left
  fit := hQ.buffer.rep.fit
  plain := hQ.buffer.plain hk.back_ne
  room := by rwa [hk.pending]

theorem trimmed (hn : n ≤ l.length) : Booked (h.trim c n) p c (l.take n) := by
  have hpend : (h.trim c n).pending c = l.take n := by
    rw [Heap.trim_pending (by rwa [hk.pending]), hk.pending]
  have hcont : (h.trim c n).content p.back.tail = [] := by
    rw [Heap.content_congr (h := h) fun k _ => Heap.trim_ready]
    exact hk.unflushed_content.2
  have hunfl : (h.trim c n).unflushed p.back.dropLast = [] := by
    rw [Heap.unflushed_congr (h := h) fun k hkd => Heap.trim_pending_of_ne
      ((hQ.stopsAt hk hn).ne (List.mem_append_right _ hkd))]
    exact hk.unflushed_content.1
  refine ⟨hk.last, hk.spare, ?_, hpend, fun hro => ?_⟩
  · rw [Heap.later_eq_unflushed hcont, hk.back_eq, Heap.unflushed_append, hunfl,
      Heap.unflushed_cons, hpend]
    simp
  · rw [Heap.trim_buf]
    refine hk.bare ?_
    rwa [((hQ.stopsAt hk hn).like c).readonly] at hro

theorem trim (hm : m = l.length) (hn : n ≤ l.length) :
    Served h (h.trim c n) (b.booking m) (b.booking n) p p (.mallocAck n) U K P P
      (.trim n) .done := by
  have hst := hQ.stopsAt hk hn
  have h0 := hQ.real_mallocSize hk hm
  have hw : b.write = some c := hQ.buffer.rep.write.trans hk.last
  have hpost := hst.post (n := n) hQ.buffer hQ.safe hQ.viewed hk.back_ne (by rwa [hk.unflushed])
    (by rw [hk.unflushed_content.1, List.length_nil, Nat.zero_add]) (by simp [hk.spare])
    (by simp [hk.spare])
  have hbook : { b.booking m with
      length := (b.booking m).length - (h.content []).length, mallocSize := n, write := some c } =
      b.booking n := by
    rw [← hw]
    simp [LinkBuffer.booking, Heap.content, h0]
  have hheap : h.acked c n ([] ++ p.spare) = h.trim c n := by
    rw [hk.spare]
    simp [Heap.acked, Heap.discardAll]
  have hparts : (⟨p.old, p.front, p.back.dropLast ++ [c], [] ++ p.spare⟩ : Parts) = p := by
    rw [← hk.back_eq]
    rfl
  rw [hbook, hheap, hparts] at hpost
  have hlook : ∀ l, (h.trim c n).look l = h.look l := fun _ => rfl
  have hearly : (h.trim c n).content p.early = h.content p.early :=
    Heap.content_congr fun _ _ => Heap.trim_ready
  refine ⟨?_, plain_sound hpost.buffer hk.back_ne, fun _ => ?_, fun hr => (by cases hr),
    fun hr => (by cases hr), trivial, some [], ?_, by simp [Out.agrees]⟩
  · exact
      { buffer := hpost.buffer
        safe := hpost.safe
        node := hpost.keeps.node
        later := hpost.later
        keeps := fun _ => hpost.keeps
        still := fun _ => ⟨fun _ _ => rfl, rfl, le_rfl, le_rfl⟩
        calm := fun _ => .refl
        pins := hpost.pins
        caches := hpost.caches
        writes := .refl
        grows := fun hn => by simp [Act.acks] at hn
        writer := id
        opens := fun _ => id
        flushed := fun hc => (Heap.content_congr fun _ _ => Heap.trim_ready).trans hc
        unsplit := fun _ hu => hu.kin (fun _ => id) fun k hk => ⟨hk, (hst.like k).kin⟩
        idle := fun _ hi k hk => by rw [Heap.trim_buf, hi k hk] }
  · exact (hQ.cached (all_ne_nil hk.back_ne)).grow rfl (fun _ _ => rfl) (by rw [hearly, hlook])
  · simp only [Queue.run, show ¬ (n : Int) < 0 by omega, if_false, Heap.queue, hearly, hlook,
      hk.later, (hQ.trimmed hk hn).later, Int.toNat_natCast]
    simp only [Heap.look, Memory.look_take]

theorem bookFlush (hm : m = l.length) :
    Served h (h.flush p.back) (b.booking m) ({ b with flush := b.write }.recalLen m) p
        ⟨p.old, p.front ++ p.back.dropLast, [c], p.spare⟩ .flush U K P P .commit .done ∧
      Booked (h.flush p.back) ⟨p.old, p.front ++ p.back.dropLast, [c], p.spare⟩ c [] := by
  have h0 := hQ.real_mallocSize hk hm
  have hw : b.write = some c := hQ.buffer.rep.write.trans hk.last
  obtain ⟨w, hw', -, hp, -, hlike⟩ := flush_core hQ.buffer hQ.safe hk.back_ne
  obtain rfl : c = w := Option.some.inj (hw.symm.trans hw')
  have hb :
    ({ b.booking m with mallocSize := 0, flush := some c }.recalLen (h.unflushed p.back).length) =
      { b with flush := b.write }.recalLen m := by
    simp [LinkBuffer.booking, LinkBuffer.recalLen, h0, hw, hk.unflushed, hm]
  rw [hb] at hp
  have hpk : ({ b with flush := b.write }.recalLen m).cachePeek = (b.booking m).cachePeek := by
    simp [LinkBuffer.recalLen, LinkBuffer.booking]
  refine ⟨hQ.committed hk.back_ne hp hpk rfl, rfl, hk.spare, hp.later,
    Heap.flush_pending hk.mem_back, fun hro => ?_⟩
  rw [(hlike c).cap]
  exact hk.bare ((hlike c).readonly ▸ hro)

end

theorem bookAck_eq (hQ : Queued h (b.booking m) p U K P) (hk : Booked h p c l) (hn : n ≤ l.length) :
    b.bookAck h n = some ({ b with flush := b.write }.recalLen n, (h.trim c n).flush p.back) := by
  have hw : b.write = some c := hQ.buffer.rep.write.trans hk.last
  have hc := Parts.mem_all_of_back hk.mem_back
  have hfit := hQ.buffer.rep.fit c hc
  have hcap : n + (h.nodes c).buf.len ≤ (h.nodes c).buf.cap := by
    have hlen := congrArg List.length hk.pending
    have hgr := hfit.grown (hQ.buffer.plain hk.back_ne c hc)
    have hmal := hfit.malloc
    rw [Heap.length_pending] at hlen
    omega
  have hheap : (h.trim c n).flush p.back = h.set c
      { h.nodes c with
        malloc := n + (h.nodes c).buf.len
        buf := { (h.nodes c).buf with len := n + (h.nodes c).buf.len } } := by
    refine congrArg (fun nodes => { h with nodes := nodes }) (funext fun k => ?_)
    by_cases hkc : k = c
    · subst hkc
      simp [hk.mem_back, Heap.trim, Node.flushed]
    · by_cases hkb : k ∈ p.back
      · have hz := congrArg List.length (hk.pending_of_ne hkb hkc)
        rw [Heap.length_pending, List.length_nil] at hz
        simp [hkb, Heap.trim, hkc, Node.flushed_eq_self (Nat.sub_eq_zero_iff_le.mp hz)]
      · simp [hkb, Heap.trim, hkc]
  simp [LinkBuffer.bookAck, hw, Slice.upto, hcap, hheap]

theorem resetTail_large (hQ : Queued h b p U K P) (hk : Booked h p c []) (cfg : Config)
    (hlarge : pagesize < m) :
    ∃ j h', b.resetTail h cfg m = some ({ b with write := some j, flush := some j }, h') ∧
      (∀ k ∈ p.all, Linked h h' k) ∧ New h h' j ∧
      Booked h' ⟨p.old, p.front ++ p.back, [j], []⟩ j [] ∧
      Served h h' b { b with write := some j, flush := some j } p
        ⟨p.old, p.front ++ p.back, [j], []⟩ .flush U K P P .commit .done := by
  have h0 : b.mallocSize = 0 := by
    rw [hQ.buffer.mallocSize_eq, hk.unflushed]
    rfl
  obtain ⟨j, h₁, htail, hwr, hmem, hn, hcap, hsame⟩ :=
    emptyTail_spec hQ.buffer hQ.safe hQ.viewed hk.back_ne cfg
  obtain ⟨w, hw, -, hf, hall, hlike⟩ := flush_core hwr.post.buffer hwr.post.safe (by simp)
  cases hw
  have hunfl : h₁.unflushed (p.back ++ [j]) = [] := hwr.pending.trans (by rw [hk.unflushed]; rfl)
  have hheap : h₁.flush (p.back ++ [j]) = h₁ := by
    refine congrArg (fun nodes => { h₁ with nodes := nodes }) (funext fun k => ?_)
    by_cases hkb : k ∈ p.back ++ [j]
    · have hz := congrArg List.length (List.flatMap_eq_nil_iff.mp hunfl k hkb)
      rw [Heap.length_pending, List.length_nil] at hz
      simp only [if_pos hkb, Node.flushed_eq_self (Nat.sub_eq_zero_iff_le.mp hz)]
    · simp only [if_neg hkb]
  have hb : ({ b with mallocSize := 0, write := some j, flush := some j }.recalLen
      (h₁.unflushed (p.back ++ [j])).length) = { b with write := some j, flush := some j } := by
    simp [LinkBuffer.recalLen, hunfl, h0]
  have hp := hf.after hwr hmem hall hlike
  simp only [hheap, hb, List.dropLast_concat] at hp
  refine ⟨j, h₁, ?_, fun k hka => hsame k ?_, hn, ⟨rfl, rfl, hp.later, hn.pending, fun _ => hcap⟩,
    hQ.committed hk.back_ne hp rfl rfl⟩
  · simp [LinkBuffer.resetTail, Nat.not_le.mpr hlarge, htail b rfl]
  · simpa [Parts.all, hk.spare] using hka

theorem resetTail (hQ : Queued h b p U K P) (hk : Booked h p c []) (cfg : Config) (maxSize : Nat) :
    ∃ b' h' p' c', b.resetTail h cfg maxSize = some (b', h') ∧ Booked h' p' c' [] ∧
      Served h h' b b' p p' .flush U K P P .commit .done := by
  by_cases hsmall : maxSize ≤ pagesize
  · refine ⟨b, h, p, c, by simp [LinkBuffer.resetTail, hsmall], hk,
      hQ.stay (r := some []) ?_ (by simp [Out.agrees]) trivial⟩
    simp [Queue.run, Heap.queue, hk.later]
  · obtain ⟨j, h', hreset, -, -, hk', hS⟩ := hQ.resetTail_large hk cfg (Nat.not_le.mp hsmall)
    exact ⟨_, h', _, j, hreset, hk', hS⟩

end Queued

def Heap.filled (h : Heap) : List Nat → Nat
  | [] => 0
  | k :: L => (h.nodes k).buf.len + h.filled L

theorem maxSizeLoop_eq {L : List Nat} {node : Option Nat} {r fuel sum : Nat}
    (hseg : Chain.Seg (fun i => (h.nodes i).next) node L (some r)) (hr : r ∉ L)
    (hf : L.length < fuel) :
    LinkBuffer.maxSizeLoop h (some r) fuel node sum =
      some (sum + h.filled L + (h.nodes r).buf.len) := by
  induction L generalizing node fuel sum with
  | nil =>
    obtain ⟨f, rfl⟩ := Nat.exists_eq_add_of_lt hf
    obtain rfl : node = some r := hseg
    simp [LinkBuffer.maxSizeLoop, Heap.filled]
  | cons k L ih =>
    obtain ⟨f, rfl, hB⟩ := Chain.steps_of_length_lt hf
    obtain ⟨rfl, hseg⟩ := hseg
    have hk : k ≠ r := fun he => hr (by simp [he])
    have hL : LinkBuffer.maxSizeLoop h (some r) f (h.nodes k).next (sum + (h.nodes k).buf.len) =
        some (sum + (h.nodes k).buf.len + h.filled L + (h.nodes r).buf.len) :=
      ih hseg (fun hm => hr (List.mem_cons_of_mem _ hm)) hB
    simp [LinkBuffer.maxSizeLoop, hk, hL, Heap.filled, Nat.add_assoc]

theorem Queued.calcMaxSize (hQ : Queued h b p U K P) (hk : Booked h p c l) :
    ∃ r, (p.front ++ p.back).head? = some r ∧
      b.calcMaxSize h = some (h.filled p.old + (h.nodes r).buf.len) := by
  have hne : p.front ++ p.back ≠ [] := by simp [hk.back_ne]
  obtain ⟨r, hr⟩ := Option.ne_none_iff_exists'.mp (mt List.head?_eq_none_iff.mp hne)
  have hread : b.read = some r := hQ.buffer.rep.read.trans hr
  have hseg := hQ.buffer.rep.seg_old.1
  have hlen := Parts.length_all hQ.safe
  rw [hread] at hseg
  refine ⟨r, hr, ?_⟩
  rw [LinkBuffer.calcMaxSize, hread, maxSizeLoop_eq hseg ?_ ?_, Nat.zero_add]
  · have hnd : (p.old ++ (p.front ++ p.back)).Nodup := by
      have := hQ.safe.nodup.of_append_left
      simp only [Parts.all, hk.spare, List.append_nil, List.append_assoc] at this
      exact this
    exact fun hm => (List.nodup_append.mp hnd).2.2 r hm r (List.mem_of_mem_head? hr) rfl
  · simp only [Parts.all, List.length_append] at hlen
    omega

theorem Booked.not_lent {x : Addr} (hQ : Queued h b p U K P) (hk : Booked h p c l) (hx : x ∈ l) :
    h.owner x.1 ≠ .lent := by
  have hc := Parts.mem_all_of_back hk.mem_back
  have hcap : 0 < (h.nodes c).buf.cap := by
    have hpos := List.length_pos_of_mem hx
    rw [← hk.pending, Heap.length_pending] at hpos
    have := (hQ.buffer.rep.fit c hc).malloc
    omega
  have hro : (h.nodes c).readonly = false := by
    by_contra hro
    have := hk.bare (by simpa using hro)
    omega
  have hblk : x.1 = (h.nodes c).buf.blk := by
    rw [← hk.pending] at hx
    exact (mem_cells.mp hx).1
  rw [hblk]
  exact (Owner.held_ne (hQ.safe.counted.live c (refs_pos_of_mem (List.mem_append_left _ hc))
    ⟨hQ.buffer.plain hk.back_ne c hc, hro, hcap⟩)).2

theorem Heap.copy_snoc {bs : List UInt8} {r : Slice} {v : UInt8} (hlen : bs.length < r.len) :
    h.copy r (bs ++ [v]) =
      { h.copy r bs with mem := store (h.copy r bs).mem r.blk (r.off + bs.length) [v] } := by
  have htake : bs.take r.len = bs := List.take_of_length_le hlen.le
  have htake' : (bs ++ [v]).take r.len = bs ++ [v] :=
    List.take_of_length_le (by rw [List.length_append]; exact hlen)
  simp only [Heap.copy, htake, htake', store_store_append]

theorem Changed.copy {w : World} {l : Layout} {bs : List UInt8} {r : Slice} (hT : Tidy w l P)
    (hi : l[i]? = some (b, p)) (hk : Booked w.heap p c r.cells) (hlen : bs.length ≤ r.len) :
    Changed w ⟨w.heap.copy r bs, w.bufs⟩ l l P i
      ⟨(w.heap.queue p).ready, bs ++ (w.heap.queue p).staged.drop bs.length⟩ := by
  have hget : w.bufs[i]? = some b := by
    rw [hT.inv.bufs, List.getElem?_map, hi]
    rfl
  induction bs using List.reverseRecOn with
  | nil =>
    have hq : w.queues[i]? = some (w.heap.queue p) := by
      rw [hT.inv.queues_eq, List.getElem?_map, hi]
      rfl
    have hcopy : w.heap.copy r [] = w.heap := by simp [Heap.copy]
    rw [hcopy]
    exact ⟨hT, (set_self hq).symm, fun _ _ _ hx => ⟨hx, fun _ _ => rfl⟩⟩
  | append_singleton bs v ih =>
    rw [List.length_append, List.length_singleton] at hlen
    have hC := ih (by omega)
    obtain ⟨q, rest, hF⟩ := hC.tidy.inv.focus (i := i) hget
    obtain rfl : p = q := by simpa [hi] using hF.get
    have hQ := hC.tidy.queued hF
    have hk' : Booked (w.heap.copy r bs) p c r.cells := hk.of_bare fun _ _ => rfl
    have ha : (r.blk, r.off + bs.length) ∈ r.cells := mem_cells.mpr ⟨rfl, by simp, by simp; omega⟩
    have hpend : (r.blk, r.off + bs.length) ∈ b.pending (w.heap.copy r bs) := by
      rw [hQ.buffer.pending_eq hQ.safe, hk'.unflushed]
      exact ha
    have hidx : (b.coming (w.heap.copy r bs)).idxOf (r.blk, r.off + bs.length) = bs.length := by
      rw [LinkBuffer.coming, hQ.buffer.back_eq hQ.safe, hk'.later]
      exact idxOf_cells (by omega)
    have hS := hQ.filled (v := v) ⟨hpend, Booked.not_lent hQ hk' ha⟩
    have hC' := hC.trans (hS.changed hC.tidy hF rfl)
    obtain ⟨x, hrun, -⟩ := hS.run
    rw [← Heap.copy_snoc (by omega)] at hC' hrun
    rw [set_self hget, set_self hi] at hC'
    have hlt : bs.length < (w.heap.queue p).staged.length := by
      rw [hk.staged, Heap.look, length_look, Slice.cells, length_cells]
      exact hlen
    have hset : (bs ++ (w.heap.queue p).staged.drop bs.length).set bs.length v =
        bs ++ [v] ++ (w.heap.queue p).staged.drop (bs.length + 1) := by
      rw [List.set_append_right _ _ le_rfl, Nat.sub_self, List.drop_eq_getElem_cons hlt,
        List.set_cons_zero]
      simp
    rw [hC.queue_eq hi, hidx] at hrun
    have hq : _ = (w.heap.copy r (bs ++ [v])).queue p := congrArg Prod.snd hrun
    rw [← hq, Queue.run, hset] at hC'
    rw [List.length_append]
    exact hC'

def Op.spares (q : Nat → Bool) : Op → Bool
  | .act i a => !q i || a.reading
  | .append i j => !q i && !q j
  | _ => true

theorem Act.reads_of_reading (ha : a.reading) : a.reads := by
  cases a <;> first | rfl | cases ha

theorem Act.leaves_of_reading {x : Call UInt8} (ha : a.reading) (hx : a.call b h h' o = some x) :
    x.leaves := by
  cases a with
  | next _ | peek _ | skip _ | readBinary _ | readString _ | readByte | readUntil _ | release =>
    cases hx
    rfl
  | _ => cases ha

theorem Op.readsFrom_of_spares
    {q : Nat → Bool} {op : Op} (hop : op.spares q) (hi : q i) (hu : op.uses i) :
    op.readsFrom i := by
  cases op with
  | new size | lend bs => cases hu
  | slice j m => exact hu
  | append j k =>
    obtain ⟨hj, hk⟩ : q j = false ∧ q k = false := by simpa [Op.spares] using hop
    rcases (Bool.or_eq_true _ _).mp hu with he | he <;> simp_all
  | act j a =>
    obtain rfl : j = i := by simpa [Op.uses] using hu
    have ha : a.reading := by simpa [Op.spares, hi] using hop
    simp [Op.readsFrom, Act.reads_of_reading ha]

theorem Op.leaves_of_spares
    {w w' : World} {q : Nat → Bool} {op : Op} {r : Request UInt8} (hop : op.spares q) (hi : q i)
    (hr : op.request w w' o = some r) : r.leaves i := by
  cases op with
  | new size | lend bs | slice j m =>
    cases hr
    rfl
  | append j k =>
    cases hr
    obtain ⟨hj, hk⟩ : q j = false ∧ q k = false := by simpa [Op.spares] using hop
    have hne : ∀ j, q j = false → j ≠ i := fun j hj he => by simp [← he, hj] at hi
    simp [Request.leaves, hne j hj, hne k hk]
  | act j a =>
    obtain ⟨b, -, hr⟩ := Option.bind_eq_some_iff.mp hr
    obtain ⟨c, hc, rfl⟩ := Option.map_eq_some_iff.mp hr
    by_cases hj : j = i
    · have ha : a.reading := by simpa [Op.spares, hj, hi] using hop
      simp [Request.leaves, Act.leaves_of_reading ha hc]
    · simp [Request.leaves, hj]

namespace World

variable {w w' : World} {g : Nat → Nat} {q : Nat → Bool} {op : Op}

def booking (w : World) (g : Nat → Nat) :
    World := { w with bufs := w.bufs.mapIdx fun i b => b.booking (g i) }

@[simp] theorem booking_heap : (w.booking g).heap = w.heap := rfl

@[simp] theorem booking_get (i : Nat) :
    (w.booking g).bufs[i]? = (w.bufs[i]?).map (·.booking (g i)) :=
  List.getElem?_mapIdx

theorem booking_set (h' : Heap) (i n : Nat) (b : LinkBuffer) :
    booking ⟨h', w.bufs.set i b⟩
      (Function.update g i n) = ⟨h', (w.booking g).bufs.set i (b.booking n)⟩ := by
  refine congrArg (World.mk h') (List.ext_getElem? fun j => ?_)
  rw [List.getElem?_mapIdx, List.getElem?_set, List.getElem?_set]
  by_cases hj : i = j
  · subst hj
    by_cases hlt : i < w.bufs.length <;> simp [hlt, booking]
  · simp [hj, Ne.symm hj, booking]

theorem booking_set_self (h' : Heap) (i : Nat) (b : LinkBuffer) : booking ⟨h', w.bufs.set i b⟩ g =
    ⟨h', (w.booking g).bufs.set i (b.booking (g i))⟩ := by
  rw [← booking_set, Function.update_eq_self]

theorem booking_snoc (h' : Heap) (bs : List LinkBuffer) (b : LinkBuffer) (hg : g bs.length = 0) :
    booking ⟨h', bs ++ [b]⟩ g = ⟨h', (booking ⟨h', bs⟩ g).bufs ++ [b]⟩ := by
  simp [booking, hg]

theorem map_booking {β : Type*} {f : LinkBuffer → β} (hf : ∀ b n, f (b.booking n) = f b) :
    (w.booking g).bufs.map f = w.bufs.map f := by
  refine List.ext_getElem? fun i => ?_
  rw [List.getElem?_map, booking_get, List.getElem?_map, Option.map_map]
  exact congrArg (Option.map · _) (funext fun b => hf b _)

theorem nodes_booking : (w.booking g).nodes = w.nodes :=
  congrArg List.flatten (map_booking fun _ _ => rfl)

theorem queues_booking : (w.booking g).queues = w.queues := map_booking fun _ _ => rfl

theorem exec_booking (hop : op.spares q) (hq : ∀ i, q i = false → g i = 0)
    (hg : g w.bufs.length = 0) :
    (w.booking g).exec cfg op = (w.exec cfg op).map fun x => (x.1, x.2.booking g) := by
  cases op with
  | new size => simp [exec, hg, booking]
  | lend bs => rfl
  | act i a =>
    cases hi : w.bufs[i]? with
    | none => simp [exec, hi]
    | some b =>
      have hrun : (b.booking (g i)).run cfg w.heap a =
          (b.run cfg w.heap a).map fun x => (x.1, x.2.1.booking (g i), x.2.2) := by
        rcases (Bool.or_eq_true _ _).mp hop with h0 | ha
        · simp [hq i (by simpa using h0)]
        · exact LinkBuffer.run_booking ha
      simp [exec, hi, hrun, booking_set_self, Option.map_bind, Option.bind_map]
  | slice i m =>
    cases hi : w.bufs[i]? with
    | none => simp [exec, hi]
    | some b =>
      simp only [exec, booking_get, hi, Option.map_some, Option.bind_eq_bind, Option.bind_some,
        LinkBuffer.slice_booking, booking_heap, Option.bind_map, Option.map_bind]
      refine Option.bind_congr fun x _ => ?_
      obtain ⟨r, b', h'⟩ := x
      cases r with
      | error msg => simp [booking_set_self]
      | ok rd =>
        have hlen : g (w.bufs.set i b').length = 0 := by simpa using hg
        simp [booking_snoc _ _ _ hlen, booking_set_self]
  | append i j =>
    obtain ⟨hi, hj⟩ : q i = false ∧ q j = false := by simpa [Op.spares] using hop
    have hi := hq i hi
    have hj := hq j hj
    cases hbi : w.bufs[i]? with
    | none => simp [exec, hbi]
    | some b =>
      cases hbj : w.bufs[j]? with
      | none => simp [exec, hbi, hbj]
      | some buf =>
        have hset : ∀ (h' : Heap) b' buf', booking ⟨h', (w.bufs.set i b').set j buf'⟩ g =
            ⟨h', ((w.booking g).bufs.set i b').set j buf'⟩ := fun h' b' buf' => by
          have hone := booking_set_self (w := w) (g := g) h' i b'
          have htwo := booking_set_self (w := ⟨h', w.bufs.set i b'⟩) (g := g) h' j buf'
          rw [hone] at htwo
          simpa [hi, hj] using htwo
        simp [exec, hbi, hbj, hi, hj, hset, Option.map_bind]

theorem request_booking : op.request (w.booking g) (w'.booking g) o = op.request w w' o := by
  cases op with
  | act i a =>
    rw [Op.request, booking_get, Op.request]
    cases w.bufs[i]? with
    | none => rfl
    | some b => cases a <;> rfl
  | _ => rfl

theorem retains_booking (hop : op.spares q) (hq : ∀ i, q i = false → g i = 0) :
    (w.booking g).retains i o op = w.retains i o op := by
  cases op with
  | new size | lend bs | act j a => rfl
  | slice j m =>
    rw [retains, retains, booking_get, booking_heap, Option.any_map]
    simp only [LinkBuffer.single_booking]
  | append j k =>
    have hk : q k = false := by
      simp only [Op.spares, Bool.and_eq_true, Bool.not_eq_true'] at hop
      exact hop.2
    simp [retains, hq k hk]

theorem orderly_booking (hop : op.spares q) (hq : ∀ i, q i = false → g i = 0) (ho : w.Orderly op) :
    (w.booking g).Orderly op := by
  obtain ⟨hl, hc, hsp, hopen, hset⟩ := ho
  cases op with
  | new size | lend bs => exact ⟨rfl, trivial, rfl, rfl, rfl⟩
  | slice i m =>
    refine ⟨rfl, fun b hb => ?_, rfl, by simpa [opens] using hopen, rfl⟩
    obtain ⟨b₀, hb₀, rfl⟩ := Option.map_eq_some_iff.mp (booking_get i ▸ hb)
    exact hc b₀ hb₀
  | append i j =>
    obtain ⟨hi, hj⟩ : q i = false ∧ q j = false := by simpa [Op.spares] using hop
    have hi := hq i hi
    have hj := hq j hj
    refine ⟨hl, trivial, rfl, ?_, rfl⟩
    simp only [opens, booking_get, hi, hj] at hopen ⊢
    simpa using hopen
  | act i a =>
    rcases (Bool.or_eq_true _ _).mp hop with h0 | ha
    · have hget : (w.booking g).bufs[i]? = w.bufs[i]? := by
        simp [hq i (by simpa using h0)]
      refine ⟨?_, ?_, hsp, ?_, ?_⟩
      · simpa only [legal, hget, booking_heap] using hl
      · simpa only [Careful, hget, booking_heap, nodes_booking] using hc
      · simpa only [opens, hget] using hopen
      · simpa only [settled, hget, booking_heap] using hset
    · have hread : (∀ b h, LinkBuffer.legal b h a = true) ∧ a.writes = false ∧ a.acks = false ∧
        a.remain = 0 ∧
          a.acked = none := by
        cases a <;> first | exact ⟨fun _ _ => rfl, rfl, rfl, rfl, rfl⟩ | cases ha
      obtain ⟨hlegal, hwr, hack, hrem, hacked⟩ := hread
      refine ⟨?_, fun b hb => ⟨?_, ?_, ?_⟩, hsp, ?_, ?_⟩
      · cases hi : (w.booking g).bufs[i]? <;> simp [legal, hi, hlegal]
      · obtain ⟨b₀, hb₀, rfl⟩ := Option.map_eq_some_iff.mp (booking_get i ▸ hb)
        have := (hc b₀ hb₀).1
        cases a <;> exact this
      · simp [LinkBuffer.CutsOwn, hrem]
      · simp [hacked]
      · simpa [opens, hwr] using hopen
      · simp [settled, hack]

theorem elim_booking {β : Type*} {d : β} {f : LinkBuffer → β} (hf : ∀ b n, f (b.booking n) = f b) :
    ((w.booking g).bufs[i]?).elim d f = (w.bufs[i]?).elim d f := by
  rw [booking_get]
  cases w.bufs[i]? with
  | none => rfl
  | some b => exact hf b _

theorem reads_booking : (w.booking g).reads i o (w'.booking g) op = w.reads i o w' op := by
  have hsliced : (w.booking g).sliced (w'.booking g) = w.sliced w' := by
    have hlen : (w.booking g).bufs.length = w.bufs.length := List.length_mapIdx
    rw [sliced, hlen, elim_booking fun _ _ => rfl]
    rfl
  cases op with
  | new size | lend bs => rfl
  | slice j m => rw [reads, hsliced, reads]
  | append j k => rw [reads, elim_booking fun _ _ => rfl, reads, booking_heap]
  | act j a =>
    cases a with
    | skip m => rw [reads, elim_booking fun _ _ => rfl, reads, booking_heap]
    | _ => rfl

end World

end Netpoll.Nocopy
