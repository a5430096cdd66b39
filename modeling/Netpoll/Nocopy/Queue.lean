import Netpoll.Nocopy.Frame
import Netpoll.Lib.Staged

namespace Netpoll.Nocopy

open Netpoll.Lib Netpoll.Lib.Memory Netpoll.Lib.Staged

variable {h h' : Heap} {b b' : LinkBuffer} {p p' : Parts} {U : List Nat} {K : List Slice}
  {P P' : Nat → Prop} {k n : Nat} {m : Int} {s : Slice} {cfg : Config} {a : Act} {o : Out}
  {c : Call UInt8} {r : Option (List UInt8)}

/-- The bytes that can be read, and those that the next flush adds. -/
def LinkBuffer.queue (b : LinkBuffer) (h : Heap) : Queue UInt8 :=
  ⟨h.look (b.readable h), h.look (b.coming h)⟩

def Heap.queue (h : Heap) (p : Parts) : Queue UInt8 :=
  ⟨h.look (h.content p.early), h.look (h.later p.back)⟩

def Out.content (h : Heap) : Out → List UInt8
  | .bytes s => h.bytes s
  | .byte c => [c]
  | _ => []

/-- What a call is for the queue.  `Malloc` stages the bytes that its memory happens to have. -/
def Act.call (b : LinkBuffer) (h h' : Heap) (o : Out) : Act → Option (Call UInt8)
  | .fill x v => some (.put ((b.coming h).idxOf x) v)
  | .malloc _ => some (.stage (o.content h'))
  | .writeBinary s | .writeString s => some (.stage (h.bytes s))
  | .writeByte c => some (.stage [c])
  | .writeDirect _ _ => none
  | .mallocAck n => some (.trim n)
  | .flush => some .commit
  | .next n | .skip n | .readBinary n | .readString n => some (.take n)
  | .peek n => some (.look n)
  | .readByte => some (.take 1)
  | .readUntil c => some (.takeTo c)
  | .release => some .idle
  | .close => some .clear

/-- The outcome shows what the call on the queue returns. -/
def Out.agrees (h : Heap) (r : Option (List UInt8)) : Out → Prop
  | .error _ => r = none
  | .bytes s => r = some (h.bytes s)
  | .byte c => r = some [c]
  | .count n => r.map List.length = some n
  | .done => r ≠ none

def Act.writes : Act → Bool
  | .malloc _ | .writeBinary _ | .writeString _ | .writeByte _ | .mallocAck _ | .flush => true
  | _ => false

def Act.reads : Act → Bool
  | .fill _ _ | .next _ | .peek _ | .skip _ | .readBinary _ | .readString _ | .readByte
  | .readUntil _
  | .release => true
  | _ => false

/-- A call after which what `Next` has returned can still be used. -/
def Act.retains : Act → Bool
  | .writeDirect _ _ | .mallocAck _ | .release | .close => false
  | _ => true

/-- What `Next` returns is leased; what `ReadBinary` and `ReadString` return is in a block that
nobody frees. -/
def Act.hands (h : Heap) (b : LinkBuffer) (p : Parts) (V : List Nat) (K : List Slice)
    (P : Nat → Prop) (o : Out) : Act → Prop
  | .next _ => ∀ s, o = .bytes s → Leased h b p V K P s
  | .readBinary _ | .readString _ => ∀ s, o = .bytes s → s.len = 0 ∨ P s.blk
  | _ => True

theorem Act.hands_of_reads {V : List Nat} (ha : a.reads = false) : a.hands h b p V K P o := by
  cases a <;> trivial

theorem Act.hands_congr {V V' : List Nat} {K' : List Slice} (ha : a.hands h b p V K P o)
    (hV : ∀ k ∈ V', k ∈ V) (hK : ∀ q ∈ K', q ∈ K) : a.hands h b p V' K' P o := by
  cases a with
  | next m =>
    exact fun s hs => (ha s hs).imp_right (Or.imp_right (And.imp_left (Held.congr · hV hK)))
  | _ => exact ha

theorem Act.hands_nil {V : List Nat} : a.hands h b p V K P (.bytes .nil) := by
  cases a <;> first | trivial | (rintro s ⟨⟩; exact .inl rfl)

theorem Act.hands_error {V : List Nat} {msg : String} : a.hands h b p V K P (.error msg) := by
  cases a <;> first | trivial | rintro s ⟨⟩

structure Untouched (h h' : Heap) (p p' : Parts) : Prop where
  back : p'.back = p.back
  spare : p'.spare = p.spare
  later : h'.later p.back = h.later p.back
  node : ∀ k ∈ p.back, (h.nodes k).SameBuf (h'.nodes k) ∧
    (h'.nodes k).readonly = (h.nodes k).readonly

theorem Untouched.of_nodes (hn : h'.nodes = h.nodes) : Untouched h h' p p :=
  ⟨rfl, rfl, Heap.later_bare fun _ _ => by rw [hn], fun k _ => by rw [hn]; exact ⟨.refl _, rfl⟩⟩

structure Queued (h : Heap) (b : LinkBuffer) (p : Parts) (U : List Nat) (K : List Slice)
    (P : Nat → Prop) :
    Prop where
  buffer : Buffer h b p
  safe : Safe h (p.all ++ U) (b.kept ++ K) P
  viewed : Viewed h U
  fit : ∀ k ∈ U, (h.nodes k).Fit
  sound : ∀ k ∈ p.all, Sound h k
  cached : p.all ≠ [] → Cached h b p

structure Served (h h' : Heap) (b b' : LinkBuffer) (p p' : Parts) (a : Act) (U : List Nat)
    (K : List Slice) (P P' : Nat → Prop) (c : Call UInt8) (o : Out) : Prop where
  acted : Acted h h' b b' p p' a U K P P'
  sound : ∀ k ∈ p'.all, Sound h' k
  cached : p'.all ≠ [] → Cached h' b' p'
  untouched : a.reads → Untouched h h' p p'
  retained : a.retains → Retained h h' b b' p p'
  hands : a.hands h' b' p' (p'.all ++ U) (b'.kept ++ K) P' o
  run : ∃ r, (h.queue p).run c = (r, h'.queue p') ∧ o.agrees h' r

theorem ReadPost.untouched (hb : Buffer h b p) (hp : ReadPost h h' b b' p p' n U K P P') :
    Untouched h h' p p' where
  back := hp.back
  spare := hp.spare hb
  later := hp.back ▸ hp.later
  node k hk := ⟨hp.sameBuf k (Parts.mem_all_of_back hk),
    (hp.like k (Parts.mem_all_of_back hk)).readonly⟩

theorem LinkBuffer.caches_eq (hk : b'.kept = b.kept) (hpk : b'.cachePeek = b.cachePeek) :
    b'.caches = b.caches := by
  rw [LinkBuffer.kept, LinkBuffer.kept, hpk] at hk
  exact List.append_cancel_right hk

namespace Queued

section

variable (hQ : Queued h b p U K P)
include hQ

theorem queue_eq : b.queue h = h.queue p := by
  rw [LinkBuffer.queue, LinkBuffer.coming, hQ.buffer.readable_eq hQ.safe, hQ.buffer.back_eq hQ.safe,
    Heap.queue]

theorem length_le : ((h.content p.early).length : Int) ≤ b.length := by
  rw [hQ.buffer.length, Parts.content_live, List.length_append]
  omega

theorem flushed (hl : b.length = (b.readable h).length) : h.content p.back.tail = [] := by
  rw [hQ.buffer.readable_eq hQ.safe, hQ.buffer.length, Parts.content_live, List.length_append] at hl
  exact List.eq_nil_of_length_eq_zero (by omega)

theorem parts_sound : p.Sound h :=
  fun k hk => hQ.sound k (Parts.mem_all_of_live (Parts.mem_live_of_early hk))

omit hQ in
theorem mem_later {C : List Nat} {x : Addr} (hx : x ∈ h.later C) :
    ∃ k ∈ C, x ∈ h.ready k ++ h.pending k := by
  cases C with
  | nil => cases hx
  | cons c C =>
    rw [Heap.later, List.mem_append] at hx
    rcases hx with hx | hx
    · exact ⟨c, by simp, List.mem_append_right _ hx⟩
    · obtain ⟨k, hk, hkx⟩ := List.mem_flatMap.mp hx
      exact ⟨k, by simp [hk], hkx⟩

omit hQ in
theorem mem_all {x : Addr} (hx : x ∈ h.content p.early ++ h.later p.back) :
    ∃ k ∈ p.all, x ∈ h.ready k ++ h.pending k := by
  rcases List.mem_append.mp hx with hx | hx
  · obtain ⟨k, hk, hkx⟩ := List.mem_flatMap.mp hx
    exact ⟨k, Parts.mem_all_of_live (Parts.mem_live_of_early hk), List.mem_append_left _ hkx⟩
  · obtain ⟨k, hk, hkx⟩ := mem_later hx
    exact ⟨k, Parts.mem_all_of_back hk, hkx⟩

theorem look_eq (hw : Writes (Loose h p.all b.kept) h.mem h'.mem) :
    h'.look (h.content p.early ++ h.later p.back) = h.look (h.content p.early ++ h.later p.back) :=
  Writes.look_ready hw hQ.safe (L := p.all)
    (fun k hk => ⟨List.mem_append_left _ hk, hQ.sound k hk, hQ.buffer.rep.fit k hk⟩)
    (fun k hk => ⟨List.mem_append_left _ hk, hQ.buffer.rep.fit k hk⟩)
    (fun _ hq => List.mem_append_left _ hq) fun _ hx => mem_all hx

theorem look_ready (hw : Writes (Loose h p.all b.kept) h.mem h'.mem) :
    h'.look (h.content p.early) = h.look (h.content p.early) := by
  have := hQ.look_eq hw
  rw [Heap.look_append, Heap.look_append] at this
  exact (List.append_inj this (by simp)).1

theorem look_staged (hw : Writes (Loose h p.all b.kept) h.mem h'.mem) :
    h'.look (h.later p.back) = h.look (h.later p.back) := by
  have := hQ.look_eq hw
  rw [Heap.look_append, Heap.look_append] at this
  exact (List.append_inj this (by simp)).2

theorem stay (hr : (h.queue p).run c = (r, h.queue p)) (ho : o.agrees h r)
    (ha : a.hands h b p (p.all ++ U) (b.kept ++ K) P o) : Served h h b b p p a U K P P c o :=
  ⟨.refl hQ.buffer hQ.safe, hQ.sound, hQ.cached, fun _ => .of_nodes rfl, fun _ => .refl, ha, r, hr,
    ho⟩

theorem took (hp : ReadPost h h' b b' p p' n U K P P')
    (hw : Writes (Loose h p.all b.kept) h.mem h'.mem) :
    h'.queue p' = ⟨(h.queue p).ready.drop n, (h.queue p).staged⟩ := by
  simp only [Heap.queue, hp.readable, hp.later, hQ.look_staged hw, Queue.mk.injEq, and_true]
  rw [Heap.look, Memory.look_drop]
  exact congrArg _ (hQ.look_ready hw)

theorem read_sound (hp : ReadPost h h' b b' p p' n U K P P') (hf : Frame h h') :
    ∀ k ∈ p'.all, Sound h' k := by
  intro k hk
  rw [hp.all] at hk
  exact hf.sound hQ.safe (List.mem_append_left _ hk) hp.post.keeps.later.lent (hQ.sound k hk)

theorem asks {run : Option (Out × LinkBuffer × Heap)} (hm : b.Modest h m)
    (hc : c = .take m ∨ c = .look m)
    (hneg : m ≤ 0 → ∃ o, run = some (o, b, h) ∧ o.agrees h (some []) ∧
      a.hands h b p (p.all ++ U) (b.kept ++ K) P o)
    (hmany : ¬ m ≤ 0 → b.length < m → ∃ msg, run = some (.error msg, b, h))
    (htake : ∀ n : Nat, m = n → 0 < n → n ≤ (h.content p.early).length → ¬ b.length < n →
      ∃ o b' h' p' P', run = some (o, b', h') ∧ Served h h' b b' p p' a U K P P' c o) :
    ∃ o b' h' p' P', run = some (o, b', h') ∧ Served h h' b b' p p' a U K P P' c o := by
  have hlen : ((h.queue p).ready.length : Int) ≤ b.length := by
    simpa [Heap.queue] using hQ.length_le
  by_cases h0 : m ≤ 0
  · obtain ⟨o, hrun, ho, ha⟩ := hneg h0
    refine ⟨o, b, h, p, P, hrun, hQ.stay ?_ ho ha⟩
    have hle : m ≤ (h.queue p).ready.length := by omega
    rcases hc with rfl | rfl <;> simp [Queue.run, hle, Int.toNat_of_nonpos h0]
  · by_cases hlt : b.length < m
    · obtain ⟨msg, hrun⟩ := hmany h0 hlt
      refine ⟨_, b, h, p, P, hrun, hQ.stay (r := none) ?_ rfl Act.hands_error⟩
      have hle : ¬ m ≤ (h.queue p).ready.length := by omega
      rcases hc with rfl | rfl <;> simp [Queue.run, hle]
    · obtain ⟨n, rfl⟩ : ∃ n : Nat, m = n := ⟨m.toNat, by omega⟩
      have hn := hm (by omega)
      rw [hQ.buffer.readable_eq hQ.safe] at hn
      exact htake n rfl (by omega) (by omega) hlt

theorem taken (hp : ReadPost h h' b b' p p' n U K P P')
    (hw : Writes (Loose h p.all b.kept) h.mem h'.mem) (hf : Frame h h')
    (hA : Acted h h' b b' p p' a U K P P') (hn : n ≤ (h.content p.early).length)
    (hc : Cached h' b' p') (hcs : b.caches <+: b'.caches)
    (ha : a.hands h' b' p' (p'.all ++ U) (b'.kept ++ K) P' o)
    (ho : o.agrees h' (some ((h.queue p).ready.take n))) :
    Served h h' b b' p p' a U K P P' (.take n) o := by
  refine ⟨hA, hQ.read_sound hp hf, fun _ => hc, fun _ => hp.untouched hQ.buffer,
    fun _ => ⟨hp.stay hQ.buffer, hcs⟩, ha, _, ?_, ho⟩
  have hle : (n : Int) ≤ (h.queue p).ready.length := by simp [Heap.queue]; omega
  simp [Queue.run, hle, hQ.took hp hw]

end

theorem look_take : (h.queue p).ready.take n = h.look ((h.content p.early).take n) := by
  simp only [Heap.queue, Heap.look, Memory.look_take]

section

variable (hQ : Queued h b p U K P)
include hQ

variable (cfg) in
theorem next (hm : b.Modest h m) : ∃ o b' h' p' P', b.run cfg h (.next m) = some (o, b', h') ∧
    Served h h' b b' p p' (.next m) U K P P' (.take m) o := by
  refine hQ.asks hm (.inl rfl) (fun h0 => ⟨.bytes .nil, ?_, rfl, Act.hands_nil⟩) (fun h0 hlt => ?_)
    fun n hn hpos hle hlen => ?_
  · simp [LinkBuffer.run, LinkBuffer.next, h0, Out.of]
  · simp only [LinkBuffer.run, LinkBuffer.next, if_neg h0, if_pos hlt]
    exact ⟨_, rfl⟩
  · obtain ⟨s, b', h', p', P', htake, hp, hst, hcalm, -, horigin, hbytes⟩ :=
      takeNext_spec hQ.buffer hQ.safe hpos hle
    have hfit : ∀ k ∈ p.all ++ U, (h.nodes k).Fit := fun k hk =>
      (List.mem_append.mp hk).elim (hQ.buffer.rep.fit k) (hQ.fit k)
    have hleased := hp.leased hQ.buffer hQ.safe hQ.sound hfit hst hpos horigin
    subst hn
    refine ⟨.bytes s, b', h', p', P', ?_, hQ.taken hp hcalm.loose (takeNext_frame htake)
      (hp.acted hQ.buffer hcalm.loose (fun _ => hst) fun _ => hcalm) hle
      (.spent (.inr ((LinkBuffer.takeNext_cachePeek htake).trans (recalLen_spent hpos))))
      (LinkBuffer.takeNext_caches htake) (by rintro s ⟨⟩; exact hleased) ?_⟩
    · simp [LinkBuffer.run, LinkBuffer.next, Nat.ne_of_gt hpos, hlen, htake, Out.of]
    · rw [Out.agrees, hbytes hQ.parts_sound, look_take]

theorem readBinaryN (cfg : Config) (ha : ∃ m, a = .readBinary m ∨ a = .readString m) (hpos : 0 < n)
    (hle : n ≤ (h.content p.early).length) :
    ∃ s b' h' p' P', b.readBinaryN h cfg n = some (s, b', h') ∧
      Served h h' b b' p p' a U K P P' (.take n) (.bytes s) := by
  obtain ⟨s, b', h', p', P', htake, hp, hst, hcalm, -, hpin, -, hkept, hbytes⟩ :=
    readBinaryN_spec cfg hQ.buffer hQ.safe hpos hle
  have hcs : b'.caches = b.caches := LinkBuffer.caches_eq (b := b.recalLen (-n))
    (hkept.trans (recalLen_kept _).symm) (LinkBuffer.readBinaryN_cachePeek htake)
  refine ⟨s, b', h', p', P', htake, hQ.taken hp hcalm.loose (readBinaryN_frame htake)
    (hp.acted hQ.buffer hcalm.loose (fun _ => hst) fun _ => hcalm) hle
    (.spent (.inr ((LinkBuffer.readBinaryN_cachePeek htake).trans (recalLen_spent hpos))))
    (hcs ▸ List.prefix_rfl) ?_ ?_⟩
  · obtain ⟨m, rfl | rfl⟩ := ha <;> (rintro s ⟨⟩; exact .inr hpin)
  · rw [Out.agrees, hbytes hQ.parts_sound, look_take]

theorem readBinary (hm : b.Modest h m) :
    ∃ o b' h' p' P', b.run cfg h (.readBinary m) = some (o, b', h') ∧ Served h h' b b' p p'
      (.readBinary m) U K P P' (.take m) o := by
  refine hQ.asks hm (.inl rfl) (fun h0 => ⟨.bytes .nil, ?_, rfl, Act.hands_nil⟩) (fun h0 hlt => ?_)
    fun n hn hpos hle hlen => ?_
  · simp [LinkBuffer.run, LinkBuffer.readBinary, h0, Out.of]
  · simp only [LinkBuffer.run, LinkBuffer.readBinary, if_neg h0, if_pos hlt]
    exact ⟨_, rfl⟩
  · obtain ⟨s, b', h', p', P', htake, hS⟩ := hQ.readBinaryN cfg ⟨m, .inl rfl⟩ hpos hle
    subst hn
    refine ⟨_, b', h', p', P', ?_, hS⟩
    simp [LinkBuffer.run, LinkBuffer.readBinary, Nat.ne_of_gt hpos, hlen, htake, Out.of]

theorem readString (hm : b.Modest h m) :
    ∃ o b' h' p' P', b.run cfg h (.readString m) = some (o, b', h') ∧ Served h h' b b' p p'
      (.readString m) U K P P' (.take m) o := by
  refine hQ.asks hm (.inl rfl) (fun h0 => ⟨.bytes .nil, ?_, rfl, Act.hands_nil⟩) (fun h0 hlt => ?_)
    fun n hn hpos hle hlen => ?_
  · simp [LinkBuffer.run, LinkBuffer.readString, h0, Out.of]
  · simp only [LinkBuffer.run, LinkBuffer.readString, if_neg h0, if_pos hlt]
    exact ⟨_, rfl⟩
  · obtain ⟨s, b', h', p', P', htake, hS⟩ := hQ.readBinaryN cfg ⟨m, .inr rfl⟩ hpos hle
    subst hn
    refine ⟨_, b', h', p', P', ?_, hS⟩
    simp [LinkBuffer.run, LinkBuffer.readString, Nat.ne_of_gt hpos, hlen, htake, Out.of]

theorem peek (hm : b.Modest h m) : ∃ o b' h' p' P', b.run cfg h (.peek m) = some (o, b', h') ∧
    Served h h' b b' p p' (.peek m) U K P P' (.look m) o := by
  refine hQ.asks hm (.inr rfl) (fun h0 => ⟨.bytes .nil, ?_, rfl, trivial⟩) (fun h0 hlt => ?_)
    fun n hn hpos hle hlen => ?_
  · simp [LinkBuffer.run, LinkBuffer.peek, h0, Out.of]
  · simp only [LinkBuffer.run, LinkBuffer.peek, if_neg h0, if_pos hlt]
    exact ⟨_, rfl⟩
  · obtain ⟨s, b', h', p', htake, hp, -, hw, -, hbytes⟩ := takePeek_spec hQ.buffer hQ.safe hpos hle
    have hall : p.all ≠ [] := fun he => by
      obtain ⟨x, hx⟩ := List.exists_mem_of_length_pos (hpos.trans_le hle)
      obtain ⟨k, hk, -⟩ := mem_all (List.mem_append_left (h.later p.back) hx)
      simp [he] at hk
    obtain ⟨hbytes, hc⟩ := hbytes hQ.parts_sound (hQ.cached hall)
    subst hn
    have hA : Acted h h' b b' p p' (.peek n) U K P P :=
      hp.acted hQ.buffer hw (fun hq => by cases hq) fun hq => by cases hq
    refine ⟨.bytes s, b', h', p', P, ?_, hA, hQ.read_sound hp (takePeek_frame htake), fun _ => hc,
      fun _ => hp.untouched hQ.buffer, fun _ => ⟨hp.stay hQ.buffer, ?_⟩, trivial, some (h'.bytes s),
      ?_, rfl⟩
    · simp [LinkBuffer.run, LinkBuffer.peek, Nat.ne_of_gt hpos, hlen, htake, Out.of]
    · rw [LinkBuffer.takePeek_caches htake]
    · have hle' : (n : Int) ≤ (h.queue p).ready.length := by simp [Heap.queue]; omega
      simp [Queue.run, hle', hQ.took hp hw, hbytes, look_take]

theorem skip (hm : b.Modest h m) : ∃ o b' h' p' P', b.run cfg h (.skip m) = some (o, b', h') ∧
    Served h h' b b' p p' (.skip m) U K P P' (.take m) o := by
  refine hQ.asks hm (.inl rfl) (fun h0 => ⟨.done, ?_, by simp [Out.agrees], trivial⟩)
    (fun h0 hlt => ?_) fun n hn hpos hle hlen => ?_
  · simp [LinkBuffer.run, LinkBuffer.skip, h0, Out.of]
  · simp only [LinkBuffer.run, LinkBuffer.skip, if_neg h0, if_pos hlt]
    exact ⟨_, rfl⟩
  · obtain ⟨b', h', p', hskip, hp, hst, hmem⟩ := skip_spec hQ.buffer hQ.safe hpos hle
    have hcalm : Calm h h' p.all := .of_mem hmem
    subst hn
    obtain ⟨r, hloop, hpk, hcs⟩ : ∃ r,
      LinkBuffer.skipLoop (h.fresh + 1) h (b.recalLen (-n)).read n = some (r, h') ∧
        b'.cachePeek = (b.recalLen (-n)).cachePeek ∧ b.caches <+: b'.caches := by
      simp only [LinkBuffer.skip, show ¬ (n : Int) ≤ 0 by omega, if_false, if_neg hlen,
        Option.bind_eq_bind] at hskip
      obtain ⟨⟨r, h₁⟩, hl, hskip⟩ := Option.bind_eq_some_iff.mp hskip
      cases hskip
      exact ⟨r, by simpa using hl, rfl, List.prefix_rfl⟩
    refine ⟨.done, b', h', p', P, by simp [LinkBuffer.run, hskip, Out.of],
      hQ.taken hp hcalm.loose (skipLoop_frame hloop)
      (hp.acted hQ.buffer hcalm.loose (fun _ => hst) fun _ => hcalm) hle
      (.spent (.inr (hpk.trans (recalLen_spent hpos)))) hcs trivial (by simp [Out.agrees])⟩

theorem readByte (hm : b.Modest h 1) : ∃ o b' h' p' P', b.run cfg h .readByte = some (o, b', h') ∧
    Served h h' b b' p p' .readByte U K P P' (.take 1) o := by
  refine hQ.asks hm (.inl rfl) (fun h0 => by omega) (fun h0 hlt => ?_) fun n hn hpos hle hlen => ?_
  · simp only [LinkBuffer.run, LinkBuffer.readByte, if_pos hlt]
    exact ⟨_, rfl⟩
  · obtain rfl : n = 1 := by omega
    obtain ⟨x, b', h', p', hread, hp, hst, hmem, hbytes⟩ := readByte_spec hQ.buffer hQ.safe hle
    have hcalm : Calm h h' p.all := .of_mem hmem
    obtain ⟨s, r, hloop, hpk, hcs⟩ : ∃ s r,
      LinkBuffer.readByteLoop h (h.fresh + 1) (b.recalLen (-1)).read = some (s, r, h') ∧
        b'.cachePeek = (b.recalLen (-(1 : Nat))).cachePeek ∧ b.caches <+: b'.caches := by
      have hlen' : ¬ b.length < 1 := hlen
      simp only [LinkBuffer.readByte, if_neg hlen', Option.bind_eq_bind] at hread
      obtain ⟨⟨s, r, h₁⟩, hl, hread⟩ := Option.bind_eq_some_iff.mp hread
      obtain ⟨v, -, hread⟩ := Option.bind_eq_some_iff.mp hread
      cases hread
      exact ⟨s, r, hl, rfl, List.prefix_rfl⟩
    refine ⟨.byte x, b', h', p', P, by simp [LinkBuffer.run, hread, Out.of],
      hQ.taken hp hcalm.loose (readByteLoop_frame hloop)
      (hp.acted hQ.buffer hcalm.loose (fun _ => hst) fun _ => hcalm) hle
      (.spent (.inr (hpk.trans (recalLen_spent hpos)))) hcs trivial ?_⟩
    rw [Out.agrees, look_take, hbytes]

omit hQ in
theorem idxOf?_left {xs ys : List UInt8} {d : UInt8} {i : Nat} (hi : (xs ++ ys).idxOf? d = some i)
    (hlt : i < xs.length) : xs.idxOf? d = some i := by
  rw [List.idxOf?, List.findIdx?_append] at hi
  rw [List.idxOf?]
  cases hr : xs.findIdx? (· == d) with
  | some k => simpa [hr] using hi
  | none =>
    rw [hr, Option.none_or, Option.map_eq_some_iff] at hi
    obtain ⟨k, -, rfl⟩ := hi
    omega

theorem readUntil {d : UInt8} (hm : b.Modest h (b.wants h (.readUntil d))) :
    ∃ o b' h' p' P', b.run cfg h (.readUntil d) = some (o, b', h') ∧
      Served h h' b b' p p' (.readUntil d) U K P P' (.takeTo d) o := by
  have hidx : b.indexByte h d 0 = some ((h.look (h.content p.live)).idxOf? d) := by
    rw [indexByte_spec hQ.buffer hQ.safe]
    simp
  have hlive : h.look (h.content p.live) = (h.queue p).ready ++ h.look (h.content p.back.tail) := by
    rw [Parts.content_live, Heap.look_append, Heap.queue]
  rw [hlive] at hidx
  cases hi : ((h.queue p).ready ++ h.look (h.content p.back.tail)).idxOf? d with
  | none =>
    have hnot : d ∉ (h.queue p).ready :=
      fun hd => List.idxOf?_eq_none_iff.mp hi (List.mem_append_left _ hd)
    refine ⟨.error "link buffer read slice cannot find delim", b, h, p, P, ?_,
      hQ.stay (r := none) ?_ rfl trivial⟩
    · simp [LinkBuffer.run, LinkBuffer.readUntil, hidx, hi, Out.of]
    · simp [Queue.run, List.idxOf?_eq_none_iff.mpr hnot]
  | some i =>
    rw [hi] at hidx
    simp only [LinkBuffer.wants, hidx] at hm
    have hlt := (List.idxOf?_eq_some_iff.mp hi).1
    have hlen :
      b.length = (((h.queue p).ready ++ h.look (h.content p.back.tail)).length : Nat) := by
      rw [← hlive, hQ.buffer.length]
      simp
    have hmod := hm (by omega)
    have hin : i < (h.queue p).ready.length := by
      rw [hQ.buffer.readable_eq hQ.safe] at hmod
      simp only [Heap.queue, Heap.look, Memory.length_look]
      omega
    have hfirst := idxOf?_left hi hin
    obtain ⟨o, b', h', p', P', hrun, hS⟩ := hQ.next cfg hm
    obtain ⟨r, hr, ho⟩ := hS.run
    refine ⟨o, b', h', p', P', ?_, ?_, hS.sound, hS.cached, fun _ => hS.untouched rfl,
      fun _ => hS.retained rfl, trivial, r, ?_, ho⟩
    · simpa [LinkBuffer.run, LinkBuffer.readUntil, hidx] using hrun
    · exact { hS.acted with opens := fun _ => hS.acted.opens (by simp) }
    · have hle : (i : Int) + 1 ≤ (h.queue p).ready.length := by omega
      rw [← hr]
      simp [Queue.run, hfirst, hle]

omit hQ in
theorem plain_sound (hb : Buffer h b p) (hback : p.back ≠ []) : ∀ k ∈ p.all, Sound h k :=
  fun k hk r hr => by simp [hb.plain hback k hk] at hr

theorem cache_calm (hw : Writes (Written h p.all []) h.mem h'.mem) {q : Slice}
    (hq : b.cachePeek = some q) :
    h'.bytes q = h.bytes q := by
  rw [Heap.bytes_eq, Heap.bytes_eq]
  exact hw.look fun x hx => hQ.buffer.cache_not_written hQ.safe hq (mem_cells.mp hx).1

omit hQ in
theorem all_ne_nil (hback : p.back ≠ []) : p.all ≠ [] := by simp [Parts.all, hback]

theorem wrote {l : List Addr} {xs : List UInt8} (hback : p.back ≠ [])
    (hw : Wrote h h' b b' p p' l U K P) (hc : Calm h h' p.all) (hpk : b'.cachePeek = b.cachePeek)
    (hl : h'.look l = xs) (ha : a.reads = false) (ho : o.agrees h' (some xs)) :
    Served h h' b b' p p' a U K P P (.stage xs) o := by
  have hready : h'.look (h'.content p'.early) = h.look (h.content p.early) := by
    rw [hw.readable, hQ.look_ready hc.loose]
  refine ⟨hw.acted hc, plain_sound hw.post.buffer hw.back, ?_, fun hr => by simp [ha] at hr,
    fun _ => ⟨hw.stay, LinkBuffer.caches_eq hw.kept hpk ▸ List.prefix_rfl⟩, Act.hands_of_reads ha,
    some xs, ?_, ho⟩
  · exact fun _ => (hQ.cached (all_ne_nil hback)).grow hpk
      (fun q hq => hQ.cache_calm (hc.mono fun _ => .inl) hq) (hready ▸ List.prefix_refl _)
  · simp only [Queue.run, Heap.queue, hready, hw.later, Heap.look_append, hQ.look_staged hc.loose,
      hl]

theorem malloc (hback : p.back ≠ []) : ∃ o b' h' p' P', b.run cfg h (.malloc m) = some (o, b', h') ∧
    Served h h' b b' p p' (.malloc m) U K P P' (.stage (o.content h')) o := by
  by_cases h0 : m ≤ 0
  · refine ⟨.bytes .nil, b, h, p, P, by simp [LinkBuffer.run, LinkBuffer.malloc, h0],
      hQ.stay ?_ rfl trivial⟩
    simp [Queue.run, Out.content, Heap.bytes, Slice.nil]
  · obtain ⟨n, rfl⟩ : ∃ n : Nat, m = n := ⟨m.toNat, by omega⟩
    obtain ⟨s, b', h', p', hma, hw, hmem, -⟩ :=
      malloc_spec (n := n) hQ.buffer hQ.safe hQ.viewed hback cfg (by omega)
    exact ⟨.bytes s, b', h', p', P, by simp [LinkBuffer.run, hma], hQ.wrote hback hw (.of_mem hmem)
      (LinkBuffer.malloc_cachePeek hma) Heap.bytes_eq.symm rfl rfl⟩

variable (cfg) in
theorem writeBinary (hback : p.back ≠ []) (ha : a.reads = false)
    (hl : h.owner s.blk = .lent ∧ s.len ≤ s.cap) :
    ∃ n b' h' p' P', b.writeBinary h cfg s = some (n, b', h') ∧
      Served h h' b b' p p' a U K P P' (.stage (h.bytes s)) (.count n) := by
  by_cases h0 : s.len = 0
  · refine ⟨0, b, h, p, P, by simp [LinkBuffer.writeBinary, h0],
      hQ.stay (r := some []) ?_ rfl (Act.hands_of_reads ha)⟩
    simp [Queue.run, Heap.bytes, h0]
  · obtain ⟨b', h', p', l, hwb, hw, hc, hlook⟩ :=
      writeBinary_spec hQ.buffer hQ.safe hQ.viewed hback cfg (by omega) hl.2 hl.1
    exact ⟨s.len, b', h', p', P, hwb,
      hQ.wrote hback hw hc (LinkBuffer.writeBinary_cachePeek hwb) hlook ha
      (by simp [Out.agrees, Heap.bytes])⟩

theorem writeByte {v : UInt8} (hback : p.back ≠ []) :
    ∃ o b' h' p' P', b.run cfg h (.writeByte v) = some (o, b', h') ∧ Served h h' b b' p p'
      (.writeByte v) U K P P' (.stage [v]) o := by
  obtain ⟨b', h', p', l, hwb, hw, hc, hlook⟩ :=
    writeByte_spec (c := v) hQ.buffer hQ.safe hQ.viewed hback cfg
  obtain ⟨⟨t, b₁, h₁⟩, hma, he⟩ := Option.bind_eq_some_iff.mp hwb
  have hpk : b'.cachePeek = b.cachePeek := by
    cases he
    exact LinkBuffer.malloc_cachePeek hma
  exact ⟨.done, b', h', p', P, by simp [LinkBuffer.run, hwb],
    hQ.wrote hback hw hc hpk hlook rfl (by simp [Out.agrees])⟩

theorem committed (hback : p.back ≠ []) (hp : FlushPost h h' b b' p p' U K P)
    (hpk : b'.cachePeek = b.cachePeek) (ha : a.reads = false) :
    Served h h' b b' p p' a U K P P .commit .done := by
  have hread : h'.look (h'.content p'.early) = h.look (h.content p.early) ++
    h.look (h.later p.back) := by
    rw [hp.readable, Heap.look_append, Heap.look, Heap.look, hp.mem]
    rfl
  refine ⟨hp.acted, plain_sound hp.post.buffer hp.back, ?_, fun hr => by simp [ha] at hr,
    fun _ => ⟨hp.stay, LinkBuffer.caches_eq hp.kept hpk ▸ List.prefix_rfl⟩, Act.hands_of_reads ha,
    some [], ?_, by simp [Out.agrees]⟩
  · exact fun _ => (hQ.cached (all_ne_nil hback)).grow hpk
      (fun q _ => by rw [Heap.bytes, Heap.bytes, hp.mem]) (hread ▸ List.prefix_append _ _)
  · simp [Queue.run, Heap.queue, hread, hp.later]

theorem flush (hback : p.back ≠ []) : ∃ o b' h' p' P', b.run cfg h .flush = some (o, b', h') ∧
    Served h h' b b' p p' .flush U K P P' .commit o := by
  obtain ⟨b', h', p', hfl, hp⟩ := doFlush_spec hQ.buffer hQ.safe hQ.viewed hback cfg
  exact ⟨.done, b', h', p', P, by simp [LinkBuffer.run, hfl],
    hQ.committed hback hp (LinkBuffer.doFlush_cachePeek hfl) rfl⟩

omit hQ in
theorem later_of_unflushed {C : List Nat} {x : Addr} (hx : x ∈ h.unflushed C) : x ∈ h.later C := by
  cases C with
  | nil => exact hx
  | cons c C =>
    rw [Heap.unflushed_cons, List.mem_append] at hx
    rw [Heap.later, List.mem_append]
    refine hx.imp_right fun hx => ?_
    obtain ⟨k, hk, hkx⟩ := List.mem_flatMap.mp hx
    exact List.mem_flatMap.mpr ⟨k, hk, List.mem_append_right _ hkx⟩

theorem count_le {x : Addr} (hback : p.back ≠ []) (hx : h.owner x.1 ≠ .lent) :
    (h.content p.early).count x + (h.later p.back).count x ≤ 1 := by
  have hnd : p.live.Nodup := by
    have := hQ.safe.nodup.of_append_left.of_append_left
    rw [Parts.live]
    exact (List.append_assoc p.old _ _ ▸ this).of_append_right
  have hle := hQ.safe.count_whole hnd
    (fun k hk => ⟨List.mem_append_left _ (Parts.mem_all_of_live hk),
      hQ.buffer.plain hback k (Parts.mem_all_of_live hk),
      hQ.buffer.rep.fit k (Parts.mem_all_of_live hk)⟩) hx
  rwa [Parts.live, hQ.buffer.rep.whole_live hback, List.count_append] at hle

theorem filled {x : Addr} {v : UInt8} (hl : x ∈ b.pending h ∧ h.owner x.1 ≠ .lent) :
    Served h { h with mem := store h.mem x.1 x.2 [v] } b b p p (.fill x v) U K P P
      (.put ((b.coming h).idxOf x) v) .done := by
  have hA := fill_acted (a := .fill x v) (v := v) hQ.buffer hQ.safe hl
  obtain ⟨hx, hne⟩ := hl
  rw [hQ.buffer.pending_eq hQ.safe] at hx
  rw [LinkBuffer.coming, hQ.buffer.back_eq hQ.safe]
  have hback : p.back ≠ [] := by
    intro he
    simp [he] at hx
  have hx := later_of_unflushed hx
  have hget : (h.later p.back)[(h.later p.back).idxOf x]? = some x := by
    rw [List.getElem?_eq_getElem (List.idxOf_lt_length_iff.mpr hx), List.getElem_idxOf]
  have hcount := hQ.count_le hback hne
  have hpos := List.count_pos_iff.mpr hx
  have hready : Heap.look { h with mem := store h.mem x.1 x.2 [v] } (h.content p.early) =
    h.look (h.content p.early) :=
    look_store_of_notMem (List.count_eq_zero.mp (by omega))
  have hstaged : Heap.look { h with mem := store h.mem x.1 x.2 [v] } (h.later p.back) =
      (h.look (h.later p.back)).set ((h.later p.back).idxOf x) v := look_store hget (by omega)
  refine ⟨hA, hQ.sound, ?_, fun _ => .of_nodes rfl,
    fun _ => .of_bare fun _ _ => rfl, trivial, some [], ?_, by simp [Out.agrees]⟩
  · exact fun _ => (hQ.cached (all_ne_nil hback)).grow rfl
      (fun q hq => hQ.cache_calm (hA.calm rfl) hq) (hready ▸ List.prefix_refl _)
  · simp only [Queue.run, Heap.queue, Prod.mk.injEq, true_and, Queue.mk.injEq]
    exact ⟨hready.symm, hstaged.symm⟩

theorem mallocAck {V : List Nat} (hback : p.back ≠ []) (hf : h.content p.back.tail = [])
    (hl : m ≤ b.mallocSize) (hc : 0 ≤ m → b.Trims h m.toNat ∧ b.Spares h m.toNat ∧
      b.Unsliced h V m.toNat ∧ b.KeepsParts h m.toNat)
    (hV : ∀ k ∈ p.all ++ U, k ∈ V) :
    ∃ o b' h' p' P', b.run cfg h (.mallocAck m) = some (o, b', h') ∧
      Served h h' b b' p p' (.mallocAck m) U K P P' (.trim m) o := by
  by_cases h0 : m < 0
  · obtain ⟨msg, hma⟩ : ∃ msg, b.mallocAck h m = some (.error msg, b, h) := ⟨_, if_pos h0⟩
    refine ⟨.error msg, b, h, p, P, by simp [LinkBuffer.run, hma, Out.of],
      hQ.stay (r := none) ?_ rfl trivial⟩
    simp [Queue.run, h0]
  · obtain ⟨n, rfl⟩ : ∃ n : Nat, m = n := ⟨m.toNat, by omega⟩
    obtain ⟨b', h', p', hma, ha⟩ :=
      mallocAck_post hQ.buffer hQ.safe hQ.viewed hback hl (hc (by omega)) hV
    have hlook : ∀ l, h'.look l = h.look l := fun l => by rw [Heap.look, Heap.look, ha.mem]
    refine ⟨.done, b', h', p', P, by simp [LinkBuffer.run, hma, Out.of], ha.acted rfl,
      plain_sound ha.post.buffer ha.back, ?_, fun hr => (by cases hr), fun hr => (by cases hr),
      trivial, some [], ?_, by simp [Out.agrees]⟩
    · exact fun _ => (hQ.cached (all_ne_nil hback)).grow (mallocAck_cachePeek hma)
        (fun q _ => by rw [Heap.bytes, Heap.bytes, ha.mem]) (by rw [ha.readable, hlook])
    · simp only [Queue.run, if_neg h0, Heap.queue, Heap.later_eq_unflushed hf,
        Heap.later_eq_unflushed ((ha.acted (a := .mallocAck n) rfl).flushed hf), ha.readable,
          ha.pending, hlook,
        Int.toNat_natCast]
      simp only [Heap.look, Memory.look_take]

theorem release : ∃ o b' h' p' P', b.run cfg h .release = some (o, b', h') ∧
    Served h h' b b' p p' .release U K P P' .idle o := by
  obtain ⟨b', h', p', hrel, hA, hkept, hmem, hback, hcont, hlater⟩ :=
    release_post (a := .release) hQ.buffer hQ.safe hQ.viewed rfl
  obtain ⟨b₁, h₁, p₁, hrel₁, hp, hk, -, -, hback₁, hsub, -, -, hspare⟩ :=
    release_buffer hQ.buffer hQ.safe hQ.viewed
  rw [hrel, Option.some.injEq, Prod.mk.injEq] at hrel₁
  obtain ⟨rfl, rfl⟩ := hrel₁
  have hall : p'.all = p₁.all :=
    (hA.buffer.chain_eq hA.safe).symm.trans (hp.buffer.chain_eq hp.safe)
  have hlook : ∀ l, h'.look l = h.look l := fun l => by rw [Heap.look, Heap.look, hmem]
  refine ⟨.done, b', h', p', P, by simp [LinkBuffer.run, hrel], hA, fun k hk' => ?_,
    fun _ q hq => ?_, fun _ => ⟨hback, ?_, hback ▸ hlater, fun k hk' => ?_⟩,
    fun hr => (by cases hr), trivial, some [], ?_, by simp [Out.agrees]⟩
  · rw [hall] at hk'
    exact hk.sound k (List.mem_append_left _ hk') (hQ.sound k (hsub k hk'))
  · simp [LinkBuffer.kept, hq] at hkept
  · exact (hp.buffer.spare_congr hA.buffer hall (hback.trans hback₁.symm)
      hA.safe.nodup.of_append_left).trans hspare
  · have hbare := hk.node k (List.mem_append_left _ (Parts.mem_all_of_back (hback₁ ▸ hk')))
    exact ⟨.of_bare hbare, (Node.Like.of_bare hbare).readonly⟩
  · simp only [Queue.run, Heap.queue, hcont, hlater, hlook]

theorem close : ∃ o b' h' p' P', b.run cfg h .close = some (o, b', h') ∧
    Served h h' b b' p p' .close U K P P' .clear o := by
  obtain ⟨b', h', hclose, hp, -, hkept⟩ := close_spec hQ.buffer hQ.safe hQ.viewed
  obtain ⟨p', P', hA⟩ := close_acted hQ.buffer hQ.safe hQ.viewed hclose
  have hall : p'.all = [] := (hA.buffer.chain_eq hA.safe).symm.trans (hp.buffer.chain_eq hp.safe)
  have hno : ∀ k, k ∉ p'.all := by simp [hall]
  have hback : p'.back = [] := List.eq_nil_iff_forall_not_mem.mpr
    fun k hk => hno k (Parts.mem_all_of_back hk)
  have hearly : p'.early = [] := List.eq_nil_iff_forall_not_mem.mpr fun k hk =>
    hno k (Parts.mem_all_of_live (Parts.mem_live_of_early hk))
  refine ⟨.done, b', h', p', P', by simp [LinkBuffer.run, hclose], hA, fun k hk => (hno k hk).elim,
    fun he => absurd hall he, fun hr => (by cases hr), fun hr => (by cases hr), trivial, some [],
    ?_, by simp [Out.agrees]⟩
  · simp [Queue.run, Heap.queue, hback, hearly]

theorem run (cfg : Config) {V : List Nat} (hl : b.legal h a) (hw : a.writes → p.back ≠ [])
    (hsp : a.splits = false) (hc : b.Careful h V a) (hf : a.acks → h.content p.back.tail = [])
    (hV : ∀ k ∈ p.all ++ U, k ∈ V) :
    ∃ o b' h' p' P' c, b.run cfg h a = some (o, b', h') ∧
      a.call b h h' o = some c ∧ Served h h' b b' p p' a U K P P' c o := by
  have hcall : ∀ {c : Out → Heap → Call UInt8}, (∀ o h', a.call b h h' o = some (c o h')) →
      (∃ o b' h' p' P', b.run cfg h a = some (o, b', h') ∧
        Served h h' b b' p p' a U K P P' (c o h') o) →
      ∃ o b' h' p' P' c, b.run cfg h a = some (o, b', h') ∧ a.call b h h' o = some c ∧
        Served h h' b b' p p' a U K P P' c o := by
    rintro c hcall ⟨o, b', h', p', P', hrun, hS⟩
    exact ⟨o, b', h', p', P', _, hrun, hcall o h', hS⟩
  cases a with
  | fill x v =>
    exact hcall (fun _ _ => rfl)
      ⟨_, _, _, _, _, rfl, hQ.filled (by simpa [LinkBuffer.legal] using hl)⟩
  | malloc m => exact hcall (fun _ _ => rfl) (hQ.malloc (hw rfl))
  | writeBinary s =>
    obtain ⟨n, b', h', p', P', hrun, hS⟩ := hQ.writeBinary (a := .writeBinary s) cfg (hw rfl) rfl
      (by simpa [LinkBuffer.legal] using hl)
    exact ⟨.count n, b', h', p', P', _, by simp [LinkBuffer.run, hrun], rfl, hS⟩
  | writeString s =>
    obtain ⟨n, b', h', p', P', hrun, hS⟩ := hQ.writeBinary (a := .writeString s) cfg (hw rfl) rfl
      (by simpa [LinkBuffer.legal] using hl)
    exact ⟨.count n, b', h', p', P', _, by simp [LinkBuffer.run, writeString_eq, hrun], rfl, hS⟩
  | writeByte v => exact hcall (fun _ _ => rfl) (hQ.writeByte (hw rfl))
  | writeDirect s r => simp [Act.splits] at hsp
  | mallocAck m =>
    exact hcall (fun _ _ => rfl)
      (hQ.mallocAck (hw rfl) (hf rfl) (by simpa [LinkBuffer.legal] using hl)
        (fun h0 => hc.2.2 _ (by simp [Act.acked, h0])) hV)
  | flush => exact hcall (fun _ _ => rfl) (hQ.flush (hw rfl))
  | next m => exact hcall (fun _ _ => rfl) (hQ.next cfg hc.1)
  | peek m => exact hcall (fun _ _ => rfl) (hQ.peek hc.1)
  | skip m => exact hcall (fun _ _ => rfl) (hQ.skip hc.1)
  | readBinary m => exact hcall (fun _ _ => rfl) (hQ.readBinary hc.1)
  | readString m => exact hcall (fun _ _ => rfl) (hQ.readString hc.1)
  | readByte => exact hcall (fun _ _ => rfl) (hQ.readByte hc.1)
  | readUntil d => exact hcall (fun _ _ => rfl) (hQ.readUntil hc.1)
  | release => exact hcall (fun _ _ => rfl) hQ.release
  | close => exact hcall (fun _ _ => rfl) hQ.close

end

end Queued

end Netpoll.Nocopy
