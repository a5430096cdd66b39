import Netpoll.Nocopy.Borrow

namespace Netpoll.Nocopy

open Netpoll.Lib Netpoll.Lib.Memory Netpoll.Lib.Transition

variable {w w' w₁ w₂ : World} {l l' : Layout} {P : Nat → Prop} {h h' : Heap} {b b' : LinkBuffer}
  {p : Parts} {U : List Nat} {K : List Slice} {i k n : Nat} {x : Addr} {s q : Slice} {m : Int}
  {cfg : Config} {a : Act} {o : Out} {op : Op} {mem : Nat → Nat → UInt8} {picks : Nat → Nat}

namespace LinkBuffer

theorem recalLen_cachePeek (d : Int) : (b.recalLen d).cachePeek = b.cachePeek ∨
    (b.recalLen d).cachePeek = b.cachePeek.map fun q => { q with len := 0 } := by
  simp only [recalLen]
  split
  · exact .inr rfl
  · exact .inl rfl

theorem isSingleNode_cachePeek {single : Bool} (hr : b.isSingleNode h n = some (single, b')) :
    b'.cachePeek = b.cachePeek := by
  simp only [isSingleNode] at hr
  split at hr
  · cases hr
    rfl
  · obtain ⟨r, -, hr⟩ := Option.bind_eq_some_iff.mp hr
    obtain ⟨j, -, hr⟩ := Option.bind_eq_some_iff.mp hr
    cases hr
    rfl

theorem growth_cachePeek {fuel : Nat} (hr : growth cfg n fuel b h = some (b', h')) :
    b'.cachePeek = b.cachePeek := by
  induction fuel generalizing b h with
  | zero => cases hr
  | succ fuel ih =>
    simp only [growth, Option.bind_eq_bind] at hr
    obtain ⟨j, -, hr⟩ := Option.bind_eq_some_iff.mp hr
    split at hr
    · split at hr
      · cases hr
        rfl
      · have h0 := ih hr
        exact h0
    · cases hr
      rfl

theorem malloc_cachePeek (hr : b.malloc h cfg m = some (s, b', h')) :
    b'.cachePeek = b.cachePeek := by
  simp only [malloc, Option.bind_eq_bind] at hr
  split at hr
  · cases hr
    rfl
  · obtain ⟨⟨b₁, h₁⟩, hg, hr⟩ := Option.bind_eq_some_iff.mp hr
    obtain ⟨j, -, hr⟩ := Option.bind_eq_some_iff.mp hr
    obtain ⟨⟨s₁, h₂⟩, -, hr⟩ := Option.bind_eq_some_iff.mp hr
    cases hr
    have h0 := growth_cachePeek hg
    exact h0

theorem addTail_cachePeek {j : Nat} (hr : b.addTail h cfg m = some (j, b', h')) :
    b'.cachePeek = b.cachePeek := by
  obtain ⟨j, -, hr⟩ := Option.bind_eq_some_iff.mp hr
  cases hr
  rfl

theorem writeBinary_cachePeek (hr : b.writeBinary h cfg s = some (n, b', h')) :
    b'.cachePeek = b.cachePeek := by
  simp only [writeBinary, Option.bind_eq_bind] at hr
  split at hr
  · cases hr
    rfl
  · split at hr
    · obtain ⟨⟨j, b₁, h₁⟩, ht, hr⟩ := Option.bind_eq_some_iff.mp hr
      cases hr
      have h0 := addTail_cachePeek ht
      exact h0
    · obtain ⟨⟨b₁, h₁⟩, hg, hr⟩ := Option.bind_eq_some_iff.mp hr
      obtain ⟨j, -, hr⟩ := Option.bind_eq_some_iff.mp hr
      obtain ⟨⟨s₁, h₂⟩, -, hr⟩ := Option.bind_eq_some_iff.mp hr
      cases hr
      have h0 := growth_cachePeek hg
      exact h0

theorem doFlush_cachePeek (hr : b.doFlush h cfg = some (b', h')) : b'.cachePeek = b.cachePeek := by
  simp only [doFlush, flushTail, Option.bind_eq_bind] at hr
  obtain ⟨⟨b₁, h₁⟩, ht, hr⟩ := Option.bind_eq_some_iff.mp hr
  obtain ⟨j, -, hr⟩ := Option.bind_eq_some_iff.mp hr
  obtain ⟨⟨t, h₂⟩, -, hr⟩ := Option.bind_eq_some_iff.mp hr
  cases hr
  have h0 : b₁.cachePeek = b.cachePeek := by
    obtain ⟨j, -, ht⟩ := Option.bind_eq_some_iff.mp ht
    split at ht
    · obtain ⟨⟨j, b₂, h₂⟩, ha, ht⟩ := Option.bind_eq_some_iff.mp ht
      cases ht
      have h0 := addTail_cachePeek ha
      exact h0
    · cases ht
      rfl
  simpa [recalLen, show ¬ (t : Int) < 0 by omega] using h0

theorem takeNext_cachePeek (hr : b.takeNext h n = some (s, b', h')) :
    b'.cachePeek = (b.recalLen (-n)).cachePeek := by
  simp only [takeNext, Option.bind_eq_bind] at hr
  obtain ⟨⟨single, b₁⟩, hsi, hr⟩ := Option.bind_eq_some_iff.mp hr
  rw [← isSingleNode_cachePeek hsi]
  split at hr
  · obtain ⟨j, -, hr⟩ := Option.bind_eq_some_iff.mp hr
    obtain ⟨⟨s₁, h₁⟩, -, hr⟩ := Option.bind_eq_some_iff.mp hr
    cases hr
    rfl
  · split at hr
    · obtain ⟨⟨r, h₁⟩, -, hr⟩ := Option.bind_eq_some_iff.mp hr
      cases hr
      rfl
    · obtain ⟨⟨r, h₁⟩, -, hr⟩ := Option.bind_eq_some_iff.mp hr
      cases hr
      rfl

theorem isSingleNode_caches {single : Bool} (hr : b.isSingleNode h n = some (single, b')) :
    b'.caches = b.caches := by
  simp only [isSingleNode] at hr
  split at hr
  · cases hr
    rfl
  · obtain ⟨r, -, hr⟩ := Option.bind_eq_some_iff.mp hr
    obtain ⟨j, -, hr⟩ := Option.bind_eq_some_iff.mp hr
    cases hr
    rfl

theorem takeNext_caches (hr : b.takeNext h n = some (s, b', h')) : b.caches <+: b'.caches := by
  simp only [takeNext, Option.bind_eq_bind] at hr
  obtain ⟨⟨single, b₁⟩, hsi, hr⟩ := Option.bind_eq_some_iff.mp hr
  rw [show b.caches = (b.recalLen (-n)).caches from rfl, ← isSingleNode_caches hsi]
  split at hr
  · obtain ⟨j, -, hr⟩ := Option.bind_eq_some_iff.mp hr
    obtain ⟨⟨s₁, h₁⟩, -, hr⟩ := Option.bind_eq_some_iff.mp hr
    cases hr
    exact List.prefix_rfl
  · split at hr
    · obtain ⟨⟨r, h₁⟩, -, hr⟩ := Option.bind_eq_some_iff.mp hr
      cases hr
      exact List.prefix_append _ _
    · obtain ⟨⟨r, h₁⟩, -, hr⟩ := Option.bind_eq_some_iff.mp hr
      cases hr
      exact List.prefix_rfl

theorem takePeek_caches (hr : b.takePeek h n = some (s, b', h')) : b'.caches = b.caches := by
  simp only [takePeek, Option.bind_eq_bind] at hr
  obtain ⟨⟨single, b₁⟩, hsi, hr⟩ := Option.bind_eq_some_iff.mp hr
  rw [← isSingleNode_caches hsi]
  split at hr
  · obtain ⟨j, -, hr⟩ := Option.bind_eq_some_iff.mp hr
    obtain ⟨s₁, -, hr⟩ := Option.bind_eq_some_iff.mp hr
    cases hr
    rfl
  · obtain ⟨⟨s₁, h₁⟩, -, hr⟩ := Option.bind_eq_some_iff.mp hr
    obtain ⟨⟨s₂, h₂⟩, -, hr⟩ := Option.bind_eq_some_iff.mp hr
    obtain ⟨s₃, -, hr⟩ := Option.bind_eq_some_iff.mp hr
    cases hr
    rfl

theorem next_cachePeek {r : Except String Slice} (hr : b.next h m = some (r, b', h')) :
    b'.cachePeek = b.cachePeek ∨ b'.cachePeek = b.cachePeek.map fun q => { q with len := 0 } := by
  simp only [next] at hr
  split_ifs at hr
  · cases hr
    exact .inl rfl
  · cases hr
    exact .inl rfl
  · obtain ⟨⟨s, b₁, h₁⟩, ht, he⟩ := Option.map_eq_some_iff.mp hr
    cases he
    rw [takeNext_cachePeek ht]
    exact recalLen_cachePeek _

theorem readBinaryN_cachePeek (hr : b.readBinaryN h cfg n = some (s, b', h')) :
    b'.cachePeek = (b.recalLen (-n)).cachePeek := by
  simp only [readBinaryN, Option.bind_eq_bind] at hr
  obtain ⟨⟨single, b₁⟩, hsi, hr⟩ := Option.bind_eq_some_iff.mp hr
  rw [← isSingleNode_cachePeek hsi]
  split at hr
  · obtain ⟨j, -, hr⟩ := Option.bind_eq_some_iff.mp hr
    split at hr
    · obtain ⟨⟨s₁, h₁⟩, -, hr⟩ := Option.bind_eq_some_iff.mp hr
      cases hr
      rfl
    · split at hr
      · obtain ⟨⟨s₁, h₁⟩, -, hr⟩ := Option.bind_eq_some_iff.mp hr
        cases hr
        rfl
      · obtain ⟨⟨s₁, h₁⟩, -, hr⟩ := Option.bind_eq_some_iff.mp hr
        cases hr
        rfl
  · obtain ⟨⟨r, h₁⟩, -, hr⟩ := Option.bind_eq_some_iff.mp hr
    cases hr
    rfl

theorem readBinary_cachePeek
    {r : Except String Slice} (hr : b.readBinary h cfg m = some (r, b', h')) :
    b'.cachePeek = b.cachePeek ∨ b'.cachePeek = b.cachePeek.map fun q => { q with len := 0 } := by
  simp only [readBinary] at hr
  split_ifs at hr
  · cases hr
    exact .inl rfl
  · cases hr
    exact .inl rfl
  · obtain ⟨⟨s, b₁, h₁⟩, ht, he⟩ := Option.map_eq_some_iff.mp hr
    cases he
    rw [readBinaryN_cachePeek ht]
    exact recalLen_cachePeek _

theorem run_cachePeek (hq : a.quiet) (hr : b.run cfg h a = some (o, b', h')) :
    b'.cachePeek = b.cachePeek ∨ b'.cachePeek = b.cachePeek.map fun q => { q with len := 0 } := by
  cases a with
  | fill x v =>
    cases hr
    exact .inl rfl
  | malloc m =>
    obtain ⟨⟨s, b₁, h₁⟩, hr, he⟩ := Option.map_eq_some_iff.mp hr
    cases he
    exact .inl (malloc_cachePeek hr)
  | writeBinary s =>
    obtain ⟨⟨n, b₁, h₁⟩, hr, he⟩ := Option.map_eq_some_iff.mp hr
    cases he
    exact .inl (writeBinary_cachePeek hr)
  | writeString s =>
    obtain ⟨⟨n, b₁, h₁⟩, hr, he⟩ := Option.map_eq_some_iff.mp hr
    cases he
    exact .inl (writeBinary_cachePeek (writeString_eq ▸ hr))
  | writeByte c =>
    obtain ⟨⟨b₁, h₁⟩, hr, he⟩ := Option.map_eq_some_iff.mp hr
    cases he
    obtain ⟨⟨s, b₂, h₂⟩, hm, hr⟩ := Option.bind_eq_some_iff.mp hr
    cases hr
    exact .inl (malloc_cachePeek hm)
  | writeDirect s r =>
    obtain ⟨⟨b₁, h₁⟩, hr, he⟩ := Option.map_eq_some_iff.mp hr
    cases he
    simp only [writeDirect, Option.bind_eq_bind] at hr
    split at hr
    · cases hr
      exact .inl rfl
    · obtain ⟨⟨j, k⟩, -, hr⟩ := Option.bind_eq_some_iff.mp hr
      split_ifs at hr
      all_goals
        obtain ⟨h₂, -, hr⟩ := Option.bind_eq_some_iff.mp hr
        obtain ⟨w, -, hr⟩ := Option.bind_eq_some_iff.mp hr
        cases hr
        exact .inl rfl
  | mallocAck m =>
    obtain ⟨⟨r, b₁, h₁⟩, hr, he⟩ := Option.map_eq_some_iff.mp hr
    cases he
    simp only [mallocAck, Option.bind_eq_bind] at hr
    split at hr
    · cases hr
      exact .inl rfl
    · obtain ⟨⟨w, h₂⟩, -, hr⟩ := Option.bind_eq_some_iff.mp hr
      obtain ⟨j, -, hr⟩ := Option.bind_eq_some_iff.mp hr
      obtain ⟨h₃, -, hr⟩ := Option.bind_eq_some_iff.mp hr
      cases hr
      exact .inl rfl
  | flush =>
    obtain ⟨⟨b₁, h₁⟩, hr, he⟩ := Option.map_eq_some_iff.mp hr
    cases he
    exact .inl (doFlush_cachePeek hr)
  | next m =>
    obtain ⟨⟨r, b₁, h₁⟩, hr, he⟩ := Option.map_eq_some_iff.mp hr
    cases he
    exact next_cachePeek hr
  | skip m =>
    obtain ⟨⟨r, b₁, h₁⟩, hr, he⟩ := Option.map_eq_some_iff.mp hr
    cases he
    simp only [skip, Option.bind_eq_bind] at hr
    split_ifs at hr
    · cases hr
      exact .inl rfl
    · cases hr
      exact .inl rfl
    · obtain ⟨⟨rd, h₂⟩, -, hr⟩ := Option.bind_eq_some_iff.mp hr
      cases hr
      exact recalLen_cachePeek (-m)
  | readBinary m =>
    obtain ⟨⟨r, b₁, h₁⟩, hr, he⟩ := Option.map_eq_some_iff.mp hr
    cases he
    exact readBinary_cachePeek hr
  | readString m =>
    obtain ⟨⟨r, b₁, h₁⟩, hr, he⟩ := Option.map_eq_some_iff.mp hr
    cases he
    obtain ⟨r', hr⟩ := readString_eq hr
    exact readBinary_cachePeek hr
  | readByte =>
    obtain ⟨⟨r, b₁, h₁⟩, hr, he⟩ := Option.map_eq_some_iff.mp hr
    cases he
    simp only [readByte, Option.bind_eq_bind] at hr
    split_ifs at hr
    · cases hr
      exact .inl rfl
    · obtain ⟨⟨s, rd, h₂⟩, -, hr⟩ := Option.bind_eq_some_iff.mp hr
      obtain ⟨c, -, hr⟩ := Option.bind_eq_some_iff.mp hr
      cases hr
      exact recalLen_cachePeek (-1)
  | readUntil c =>
    obtain ⟨⟨r, b₁, h₁⟩, hr, he⟩ := Option.map_eq_some_iff.mp hr
    cases he
    obtain ⟨k, -, hr⟩ := Option.bind_eq_some_iff.mp hr
    cases k with
    | none =>
      cases hr
      exact .inl rfl
    | some k => exact next_cachePeek hr
  | peek _ | release | close => simp [Act.quiet] at hq

end LinkBuffer

def InCache (b : LinkBuffer) (s : Slice) : Prop :=
  ∃ q, b.cachePeek = some q ∧ q.blk = s.blk ∧ q.off = s.off ∧ (q.len = 0 ∨ s.len ≤ q.len)

theorem InCache.of_cachePeek (hc : InCache b s)
    (hb : b'.cachePeek = b.cachePeek ∨ b'.cachePeek = b.cachePeek.map
      fun q => { q with len := 0 }) :
    InCache b' s := by
  obtain ⟨q, hq, h1, h2, h3⟩ := hc
  rcases hb with hb | hb
  · exact ⟨q, hb.trans hq, h1, h2, h3⟩
  · exact ⟨{ q with len := 0 }, by rw [hb, hq]; rfl, h1, h2, .inl rfl⟩

theorem Safe.cache_held (hs : Safe h U (b.kept ++ K) P) (hq : b.cachePeek = some q) :
    (h.owner q.blk).held :=
  (hs.counted.cache { q with len := 0 } (by simp [LinkBuffer.kept, hq])).2.2

theorem Buffer.cache_not_written (hb : Buffer h b p) (hs : Safe h (p.all ++ U) (b.kept ++ K) P)
    (hq : b.cachePeek = some q) (hx : x.1 = q.blk) : ¬ Written h p.all [] x := by
  have hheld := Owner.held_ne (hs.cache_held hq)
  have hroot : ∀ k ∈ p.all ++ U, (h.nodes k).root → (h.nodes k).buf.blk ≠ q.blk := fun k hk hr =>
    hs.counted.apart k { q with len := 0 } (by simp [LinkBuffer.kept, hq]) (refs_pos_of_mem hk) hr
  rintro ((hm | ⟨r, hr, -⟩ | ⟨k, hk, hr, he, -⟩) | ⟨⟨k, hk, ho, hkx⟩, -⟩)
  · exact hheld.1 (hx ▸ hm)
  · cases hr
  · exact hroot k (List.mem_append_left _ hk) hr (he.trans hx)
  · obtain ⟨he, -, -, hcap⟩ := (hb.rep.fit k hk).mem_bounds (List.mem_append_right _ hkx)
    cases hro : (h.nodes k).readonly with
    | false => exact hroot k (List.mem_append_left _ hk) ⟨ho, hro, hcap⟩ (he.symm.trans hx)
    | true =>
      rcases hs.woven.viewed k (List.mem_append_left _ hk)
        ⟨ho, hro, hcap⟩ with hl | ⟨r, hr, hrr, hre⟩
      · exact hheld.2 (hx ▸ he ▸ hl)
      · exact hroot r hr hrr (hre.trans (he.symm.trans hx))

def Act.stays : Act → Bool
  | .release | .close | .mallocAck _ => false
  | _ => true

def Op.stays (i : Nat) : Op → Bool
  | .lend _ => true
  | .act j a => j == i && a.stays
  | _ => false

namespace LinkBuffer

/-- A `Peek` over several nodes adds to what the cache holds: the cache is large enough, and has not
been emptied by a read. -/
def PeeksOn (b : LinkBuffer) (h : Heap) : Act → Prop
  | .peek n => 0 < n → n ≤ b.length → ∀ x ∈ b.isSingleNode h n.toNat, x.1 = false →
      ∀ q ∈ b.cachePeek, n ≤ q.cap ∧ 0 < q.len
  | _ => True

instance (b : LinkBuffer) (h : Heap) : DecidablePred (b.PeeksOn h)
  | .peek n => inferInstanceAs
      (Decidable (_ → _ → ∀ x ∈ b.isSingleNode h n.toNat, _ → ∀ q ∈ b.cachePeek, _))
  | .fill _ _ | .malloc _ | .writeBinary _ | .writeString _ | .writeByte _ | .writeDirect _ _
  | .mallocAck _
  | .flush | .next _ | .skip _ | .readBinary _ | .readString _ | .readByte | .readUntil _ | .release
  | .close => inferInstanceAs (Decidable True)

end LinkBuffer

namespace World

def PeeksOn (w : World) : Op → Prop
  | .act i a => ∀ b ∈ w.bufs[i]?, b.PeeksOn w.heap a
  | _ => True

instance (w : World) : DecidablePred w.PeeksOn
  | .act i a => inferInstanceAs (Decidable (∀ b ∈ w.bufs[i]?, b.PeeksOn w.heap a))
  | .new _ | .lend _ | .slice _ _ | .append _ _ => inferInstanceAs (Decidable True)

def Peeking (i : Nat) (w : World) (op : Op) : Prop :=
  w.legal op ∧ w.Careful op ∧ op.stays i ∧ w.PeeksOn op

instance (i : Nat) (w : World) (op : Op) : Decidable (w.Peeking i op) :=
  inferInstanceAs (Decidable (_ ∧ _))

end World

section Step

variable (hb : Buffer h b p) (hs : Safe h (p.all ++ U) (b.kept ++ K) P)
include hb hs

theorem Buffer.peek_cases
    {r : Except String Slice} (hm : b.Modest h m) (hr : b.peek h m = some (r, b', h')) :
    b' = b ∧ h' = h ∨ ∃ (n : Nat) (s : Slice), m = n ∧ 0 < n ∧ n ≤ b.length ∧ r = .ok s ∧
      Peek h h' b b' p n s ∧ ((∀ q, b.cachePeek = some q → n ≤ q.cap) → Still h h') := by
  by_cases h0 : m ≤ 0
  · rw [LinkBuffer.peek, if_pos h0] at hr
    cases hr
    exact .inl ⟨rfl, rfl⟩
  · by_cases hlen : b.length < m
    · rw [LinkBuffer.peek, if_neg h0, if_pos hlen] at hr
      cases hr
      exact .inl ⟨rfl, rfl⟩
    · obtain ⟨n, rfl⟩ : ∃ n : Nat, m = n := ⟨m.toNat, by omega⟩
      have hn := hm (by omega)
      rw [hb.readable_eq hs] at hn
      obtain ⟨s, b₁, h₁, p', htake, -, hp, -, hst, -⟩ :=
        takePeek_spec hb hs (n := n) (by omega) (by omega)
      simp only [LinkBuffer.peek, if_neg h0, if_neg hlen, Int.toNat_natCast, htake, Option.map_some,
        Option.some.injEq, Prod.mk.injEq] at hr
      obtain ⟨rfl, rfl, rfl⟩ := hr
      exact .inr ⟨n, s, rfl, by omega, by omega, rfl, hp, hst⟩

theorem Buffer.peek_stays
    {r : Except String Slice} (hm : b.Modest h m) (hon : b.PeeksOn h (.peek m))
    (hr : b.peek h m = some (r, b', h')) :
    Still h h' ∧ (InCache b s → InCache b' s ∧ h'.bytes s = h.bytes s) := by
  rcases hb.peek_cases hs hm hr with ⟨rfl, rfl⟩ | ⟨n, t, rfl, hpos, hlen, rfl, hp, hst⟩
  · exact ⟨.refl, fun hc => ⟨hc, rfl⟩⟩
  · cases hp with
    | part j hj he hle hheap hcache =>
      subst hheap
      exact ⟨.refl, fun hc => ⟨hc.of_cachePeek (.inl hcache), rfl⟩⟩
    | cache q hmulti hold hsame hcache he hw =>
      obtain ⟨b₁, hmulti⟩ := hmulti
      have hon : ∀ q ∈ b.cachePeek, (n : Int) ≤ q.cap ∧ 0 < q.len :=
        hon (by omega) hlen _ (by simpa using hmulti) rfl
      have hcap : ∀ q', b.cachePeek = some q' → n ≤ q'.cap := fun q' hq' => by
        have := (hon q' hq').1
        omega
      refine ⟨hst hcap, fun ⟨q', hq', hblk, hoff, hl⟩ => ?_⟩
      obtain rfl := hsame hcap q' hq'
      have hpos := (hon q' hq').2
      refine ⟨⟨_, hcache, hblk, hoff, .inr (by simp only; omega)⟩, ?_⟩
      rw [Heap.bytes_eq, Heap.bytes_eq]
      refine hw.look fun x hx hm => ?_
      have h1 := mem_cells.mp hx
      have h2 := mem_cells.mp hm
      omega

end Step

theorem peeking_step (hI : Inv w l P) (hP : w.CutsFree P op) (hop : w.Peeking i op)
    (hx : w.exec cfg op = some (o, w')) (hi : w.bufs[i]? = some b) :
    Still w.heap w'.heap ∧ ∃ b', w'.bufs[i]? = some b' ∧
      (InCache b s → InCache b' s ∧ w'.heap.bytes s = w.heap.bytes s) := by
  obtain ⟨hl, hc, hst, hon⟩ := hop
  obtain ⟨p, rest, hF⟩ := hI.focus hi
  cases op with
  | lend bs =>
    obtain ⟨-, -, hst, hw, hbufs⟩ := lend_inv hI bs hx
    refine ⟨hst, b, hbufs ▸ hi, fun hc => ⟨hc, ?_⟩⟩
    obtain ⟨q, hq, hblk, -⟩ := hc
    rw [Heap.bytes_eq, Heap.bytes_eq]
    refine hw.look fun x hx hm => ?_
    rw [(mem_cells.mp hx).1, ← hblk] at hm
    exact (Owner.held_ne (hF.safe.cache_held hq)).1 hm
  | act j a =>
    simp only [Op.stays, Bool.and_eq_true, beq_iff_eq] at hst
    obtain ⟨rfl, hst⟩ := hst
    obtain ⟨b₀, b', h', hi', hrun, rfl⟩ := World.exec_act.mp hx
    obtain rfl : b₀ = b := by simpa [hi] using hi'.symm
    have hget : (w.bufs.set j b')[j]? = some b' := by
      obtain ⟨hlt, -⟩ := List.getElem?_eq_some_iff.mp hi
      simp [hlt]
    have hon : b₀.PeeksOn w.heap a := hon b₀ hi
    by_cases hq : a.quiet
    · have hl : b₀.legal w.heap a := by simpa [World.legal, hi] using hl
      obtain ⟨p', P', hA⟩ := run_acted hF.buffer hF.safe hF.viewed hl (hc b₀ hi)
        (fun k hk => hI.nodes_eq ▸ (Layout.nodes_perm hF.perm).mem_iff.mpr hk) (hP b₀ hi) hrun
      refine ⟨hA.still hq, b', hget,
        fun hc => ⟨hc.of_cachePeek (LinkBuffer.run_cachePeek hq hrun), ?_⟩⟩
      obtain ⟨q, hq', hblk, -⟩ := hc
      rw [Heap.bytes_eq, Heap.bytes_eq]
      exact (hA.calm hq).look fun x hx =>
        hF.buffer.cache_not_written hF.safe hq' ((mem_cells.mp hx).1.trans hblk.symm)
    · cases a with
      | peek m =>
        obtain ⟨⟨r, b₁, h₁⟩, hr, he⟩ := Option.map_eq_some_iff.mp hrun
        cases he
        obtain ⟨h1, h2⟩ := hF.buffer.peek_stays hF.safe (hc b₀ hi).1 hon hr
        exact ⟨h1, b', hget, h2⟩
      | release | close => simp [Act.stays] at hst
      | _ => simp [Act.quiet] at hq
  | _ => simp [Op.stays] at hst

theorem Op.acks_of_stays (hst : op.stays i) : op.acks = false := by
  cases op with
  | act j a => cases a <;> first | rfl | simp [Op.stays, Act.stays] at hst
  | _ => rfl

theorem Held.owner_ne {V : List Nat} (hh : Held h V K s) : h.owner s.blk ≠ .mcache := by
  rcases hh with hl | ⟨ho, -⟩
  · simp [hl]
  · exact ho

theorem peek_held (hI : Inv w l fun _ => False) (hi : w.bufs[i]? = some b)
    (hsd : ∀ k ∈ b.chain w.heap, Sound w.heap k) (hc : b.Modest w.heap m) (hm : 0 < m)
    (hx : w.exec cfg (.act i (.peek m)) = some (.bytes s, w')) :
    ∃ l' b', Inv w' l' (fun _ => False) ∧ w'.bufs[i]? = some b' ∧
      (InCache b' s ∨ Held w'.heap l'.nodes l'.kept s) := by
  obtain ⟨p, rest, hF⟩ := hI.focus hi
  have hop : w.legal (.act i (.peek m)) := by simp [World.legal, LinkBuffer.legal]
  obtain ⟨l', P', hI', -, hM⟩ := step_inv hI hop
    (fun b₀ hi' => by
      obtain rfl : b₀ = b := by simpa [hi] using hi'.symm
      exact ⟨hc, fun h0 => by simp [Act.remain] at h0, by simp [Act.acked]⟩) (w.cutsFree_false _) hx
  obtain ⟨b₀, b', h', hi', hrun, rfl⟩ := World.exec_act.mp hx
  obtain rfl : b₀ = b := by simpa [hi] using hi'.symm
  have hget : (w.bufs.set i b')[i]? = some b' := by
    obtain ⟨hlt, -⟩ := List.getElem?_eq_some_iff.mp hi
    simp [hlt]
  refine ⟨l', b', hI'.unpin fun _ => False.elim, hget, ?_⟩
  obtain ⟨⟨r, b₁, h₁⟩, hr, he⟩ := Option.map_eq_some_iff.mp hrun
  simp only [Prod.mk.injEq] at he
  obtain ⟨he, rfl, rfl⟩ := he
  have hle : m ≤ b₀.length := by
    by_contra hlt
    rw [LinkBuffer.peek, if_neg (by omega), if_pos (by omega)] at hr
    cases hr
    cases he
  have hn := hc hle
  rw [hF.buffer.readable_eq hF.safe] at hn
  obtain ⟨n, rfl⟩ : ∃ n : Nat, m = n := ⟨m.toNat, by omega⟩
  obtain ⟨s', b₂, h₂, p', htake, -, hp, -⟩ :=
    takePeek_spec hF.buffer hF.safe (n := n) (by omega) (by omega)
  simp only [LinkBuffer.peek, show ¬ (n : Int) ≤ 0 by omega, if_false,
    show ¬ b₀.length <
      (n : Int) by
      omega, Int.toNat_natCast, htake, Option.map_some, Option.some.injEq, Prod.mk.injEq] at hr
  obtain ⟨rfl, rfl, rfl⟩ := hr
  obtain rfl : s' = s := by simpa [Out.of] using he
  cases hp with
  | part k hk hs hle hheap hcache =>
    have hkl : k ∈ l.nodes := Layout.mem_nodes (List.mem_of_getElem? hF.get) hk
    have hh : Held w.heap l.nodes l.kept s' := hs ▸ hI.safe.held hkl
      (hsd k (hF.buffer.chain_eq hF.safe ▸ hk)) (fun j hj => hI.fit hj) (by omega) hle
    exact .inr (hh.step hM rfl (by rw [hheap]; exact hh.owner_ne))
  | cache q hmulti hold hsame hcache hs hw =>
    subst hs
    exact .inl ⟨_, hcache, rfl, rfl, .inr (Nat.le_max_left _ _)⟩

/-- What `Peek` has returned does not change and is not freed before the next `Release`, if each
`Peek` over several nodes adds to the cache. -/
theorem peek_valid
    (hw : Reach (World.step cfg) (fun w op => w.legal op ∧ w.Careful op) (World.start mem picks) w)
    (hi : w.bufs[i]? = some b) (hsd : ∀ k ∈ b.chain w.heap, Sound w.heap k) (hc : b.Modest w.heap m)
    (hm : 0 < m) (hx : w.exec cfg (.act i (.peek m)) = some (.bytes s, w₁))
    (hr : Reach (World.step cfg) (World.Peeking i) w₁ w₂) :
    w₂.heap.bytes s = w₁.heap.bytes s ∧ w₂.heap.freed = w₁.heap.freed := by
  obtain ⟨l, hI, -⟩ := run_inv (I := fun _ _ => True) hw trivial (fun _ _ hop => hop)
    fun _ _ _ => trivial
  obtain ⟨l₁, b₁, hI₁, hi₁, hh₁⟩ := peek_held hI hi hsd hc hm hx
  obtain ⟨l₂, b₂, -, -, -, hb, hf⟩ := hr.invariant
    (I := fun w => ∃ l b, Inv w l (fun _ => False) ∧ w.bufs[i]? = some b ∧
      (InCache b s ∨ Held w.heap l.nodes l.kept s) ∧ w.heap.bytes s = w₁.heap.bytes s ∧
      w.heap.freed = w₁.heap.freed)
    ⟨l₁, b₁, hI₁, hi₁, hh₁, rfl, rfl⟩ fun w op w' ⟨l, b, hI, hi, hh, hb, hf⟩ hop hs => by
      obtain ⟨o, hx⟩ := exec_of_step hs
      obtain ⟨hst, b', hi', hcache⟩ := peeking_step hI (w.cutsFree_false op) hop hx hi (s := s)
      obtain ⟨l', P', hI', -, hM⟩ := step_inv hI hop.1 hop.2.1 (w.cutsFree_false op) hx
      refine ⟨l', b', hI'.unpin fun _ => False.elim, hi', ?_⟩
      rcases hh with hc | hh
      · obtain ⟨hc', hb'⟩ := hcache hc
        exact ⟨.inl hc', hb'.trans hb, hst.freed.trans hf⟩
      · refine ⟨.inr (hh.step hM (Op.acks_of_stays hop.2.2.1) ?_), (hh.bytes hI hM).trans hb,
          hst.freed.trans hf⟩
        rw [hst.owner _ hh.owner_ne]
        exact hh.owner_ne
  exact ⟨hb, hf⟩

/-- A larger `Peek` frees the cache, and a `Peek` after a read stores over what it held. -/
theorem peek_invalid : ∃ w w₁ w₂ w₃, World.after (fun w op => w.legal op)
      [.new 1, .act 0 (.malloc 6), .act 0 (.malloc 6), .act 0 (.fill (0, 1) 1), .act 0 .flush] =
      some w ∧
    w.exec .small (.act 0 (.peek 8)) = some (.bytes ⟨2, 0, 8, 8⟩, w₁) ∧
    w₁.heap.bytes ⟨2, 0, 8, 8⟩ = [0, 1, 0, 0, 0, 0, 0, 0] ∧
    runs (guarded (World.step .small) World.legal) w₁ [.act 0 (.peek 12)] = some w₂ ∧
    w₂.heap.freed = [2] ∧
    runs (guarded (World.step .small) World.legal) w₁
      [.act 0 (.next 1), .act 0 (.peek 8)] = some w₃ ∧
    w₃.heap.bytes ⟨2, 0, 8, 8⟩ = [1, 0, 0, 0, 0, 0, 0, 0] :=
  ⟨_, _, _, _, rfl, rfl, by decide, rfl, rfl, rfl, by decide⟩

theorem peek_valid_again : ∃ w w₁ w₂, World.after (fun w op => w.legal op ∧ w.Careful op)
      [.new 1, .act 0 (.malloc 6), .act 0 (.malloc 6), .act 0 (.fill (0, 1) 1), .act 0 .flush] =
      some w ∧
    w.exec .small (.act 0 (.peek 8)) = some (.bytes ⟨2, 0, 8, 8⟩, w₁) ∧
    runs (guarded (World.step .small) fun w op => decide (w.Peeking 0 op)) w₁
      [.act 0 (.peek 7), .act 0 (.malloc 3), .act 0 (.next 2), .act 0 .flush, .act 0 (.peek 2)] =
      some w₂ ∧
    w₂.heap.bytes ⟨2, 0, 8, 8⟩ = [0, 1, 0, 0, 0, 0, 0, 0] ∧ w₂.heap.freed = [] := by
  obtain ⟨w, w₁, w₂, b, hw, hi, hsd, hc, hx, hr, hb, hf⟩ : ∃ w w₁ w₂ b,
      World.after (fun w op => w.legal op ∧ w.Careful op)
        [.new 1, .act 0 (.malloc 6), .act 0 (.malloc 6), .act 0 (.fill (0, 1) 1), .act 0 .flush] =
        some w ∧
      w.bufs[0]? = some b ∧ (∀ k ∈ b.chain w.heap, (w.heap.nodes k).origin = none) ∧
      b.Modest w.heap 8 ∧ w.exec .small (.act 0 (.peek 8)) = some (.bytes ⟨2, 0, 8, 8⟩, w₁) ∧
      runs (guarded (World.step .small) fun w op => decide (w.Peeking 0 op)) w₁
        [.act 0 (.peek 7), .act 0 (.malloc 3), .act 0 (.next 2), .act 0 .flush, .act 0 (.peek 2)] =
        some w₂ ∧
      w₁.heap.bytes ⟨2, 0, 8, 8⟩ = [0, 1, 0, 0, 0, 0, 0, 0] ∧ w₁.heap.freed = [] :=
    ⟨_, _, _, _, rfl, rfl, by decide, by decide, rfl, rfl, by decide, rfl⟩
  obtain ⟨h1, h2⟩ := peek_valid (World.reach_of_after hw) hi
    (fun k hk r hr => by simp [hsd k hk] at hr) hc (by decide) hx (.of_decide hr)
  exact ⟨w, w₁, w₂, hw, hx, hr, h1.trans hb, h2.trans hf⟩

end Netpoll.Nocopy
