import Netpoll.Input.Until
import Netpoll.Nocopy.ZcReader

namespace Netpoll.Nocopy.ZcReader

open Netpoll.Lib.Transition

variable {cfg : Config} {src : Source} {n : Int} {z z' z₁ : ZcReader} {zs : List ZcReader}
  {r : Option SourceErr} {bs bs' : List UInt8} {i k : Nat} {c : Call} {rp : Reply}

def Source.first (src : Source) (k : Nat) :
    List UInt8 := (List.range k).flatMap fun i => (src i).bytes

/-- The contract of `io.Reader`; no data follows the first error, and sooner or later there is data
or an error. -/
structure Source.Lawful (src : Source) : Prop where
  sane : ∀ k, (src k).Sane
  last : ∀ {i k}, i < k → (src i).err ≠ none → (src k).num = 0
  goes_on : ∀ k, ∃ m, k ≤ m ∧ (0 < (src m).num ∨ (src m).err ≠ none)

theorem Read.Sane.length_bytes {rd : Read} (hr : rd.Sane) : (rd.bytes.length : Int) = rd.num := by
  have := hr.1
  have := hr.2.1
  simp only [Read.bytes, List.length_take]
  omega

@[simp] theorem Source.first_succ : src.first (k + 1) = src.first k ++ (src k).bytes := by
  simp [Source.first, List.range_succ]

theorem Source.first_mono (hik : i ≤ k) : src.first i <+: src.first k := by
  induction hik with
  | refl => exact List.prefix_refl _
  | step _ ih => exact ih.trans (by simp)

theorem Source.Lawful.first_eq (hl : src.Lawful) (he : (src i).err ≠ none) (hik : i < k) :
    src.first k = src.first (i + 1) := by
  induction hik with
  | refl => rfl
  | @step k hik ih =>
    have hnil : (src k).bytes = [] := by simp [Read.bytes, hl.last hik he]
    rw [Source.first_succ, ih, hnil, List.append_nil]

theorem Source.Lawful.length_first_le (hl : src.Lawful) (he : (src i).err ≠ none) (k : Nat) :
    (src.first k).length ≤ (src.first (i + 1)).length := by
  by_cases hik : i < k
  · rw [hl.first_eq he hik]
  · exact (Source.first_mono (by omega)).length_le

inductive Pulls (cfg : Config) (src : Source) (n : Int) :
    ZcReader → List ZcReader → Option SourceErr → ZcReader → Prop
  | enough {z : ZcReader} : ¬ z.len < n → Pulls cfg src n z [] none z
  | failed {z z' : ZcReader} {err : SourceErr} : z.len < n → z.cycle cfg src = some (some err, z') →
      Pulls cfg src n z [z] (some err) z'
  | more {z z₁ z' : ZcReader} {zs : List ZcReader} {r : Option SourceErr} : z.len < n →
      z.cycle cfg src = some (none, z₁) → Pulls cfg src n z₁ zs r z' → Pulls cfg src n z
        (z :: zs) r z'

theorem Pulls.not_lt (hp : Pulls cfg src n z zs r z') (hr : r = none) : ¬ z'.len < n := by
  induction hp with
  | enough hn => exact hn
  | failed => cases hr
  | more _ _ _ ih => exact ih hr

theorem Pulls.unique {zs' : List ZcReader} {r' : Option SourceErr} {z'' : ZcReader}
    (hp : Pulls cfg src n z zs r z') (hp' : Pulls cfg src n z zs' r' z'') :
    zs' = zs ∧ r' = r ∧ z'' = z' := by
  induction hp generalizing zs' with
  | enough hn =>
    cases hp' with
    | enough => exact ⟨rfl, rfl, rfl⟩
    | failed hlt | more hlt => exact absurd hlt hn
  | failed hlt hc =>
    cases hp' with
    | enough hn => exact absurd hlt hn
    | failed _ hc' =>
      cases hc.symm.trans hc'
      exact ⟨rfl, rfl, rfl⟩
    | more _ hc' _ => cases hc.symm.trans hc'
  | more hlt hc _ ih =>
    cases hp' with
    | enough hn => exact absurd hlt hn
    | failed _ hc' => cases hc.symm.trans hc'
    | more _ hc' hp' =>
      cases hc.symm.trans hc'
      obtain ⟨rfl, rfl, rfl⟩ := ih hp'
      exact ⟨rfl, rfl, rfl⟩

theorem Pulls.fill (hp : Pulls cfg src n z zs r z') (i : Nat) :
    (zs.length ≤ i → fill cfg src n i z = some (r, z')) ∧
      (i < zs.length → ∃ z₁ zs',
        fill cfg src n i z = some (none, z₁) ∧ Pulls cfg src n z₁ zs' r z' ∧
        zs'.length + i = zs.length) := by
  induction hp generalizing i with
  | enough hn => cases i <;> simp [ZcReader.fill, hn]
  | failed hlt hc =>
    cases i with
    | zero => exact ⟨fun h => by simp at h, fun _ => ⟨_, _, rfl, .failed hlt hc, rfl⟩⟩
    | succ i => exact ⟨fun _ => by simp [ZcReader.fill, hlt, hc], fun h => by simp at h⟩
  | more hlt hc hp ih =>
    cases i with
    | zero => exact ⟨fun h => by simp at h, fun _ => ⟨_, _, rfl, .more hlt hc hp, rfl⟩⟩
    | succ i =>
      obtain ⟨h₁, h₂⟩ := ih i
      refine ⟨fun hle => ?_, fun hlt' => ?_⟩
      · simp [ZcReader.fill, hlt, hc, h₁ (by simpa using hle)]
      · obtain ⟨z₂, zs', hf, hp', hlen⟩ := h₂ (by simpa using hlt')
        exact ⟨z₂, zs', by simp [ZcReader.fill, hlt, hc, hf], hp', by simp; omega⟩

theorem Pulls.waitRead (hp : Pulls cfg src n z zs r z') {fuel : Nat} (hf : zs.length < fuel) :
    waitRead cfg src n fuel z = some (r.map SourceErr.raised, z') := by
  induction fuel generalizing z zs with
  | zero => omega
  | succ fuel ih =>
    by_cases hlt : z.len < n
    · have hpos : 0 < zs.length := by
        cases hp with
        | enough hn => exact absurd hlt hn
        | failed | more => simp
      by_cases hle : zs.length ≤ maxReadCycle
      · have hfill := (hp.fill maxReadCycle).1 hle
        cases r with
        | some err => simp [ZcReader.waitRead, hlt, hfill]
        | none =>
          obtain ⟨f, rfl⟩ : ∃ f, fuel = f + 1 := ⟨fuel - 1, by omega⟩
          simp [ZcReader.waitRead, hlt, hfill, hp.not_lt rfl]
      · obtain ⟨z₁, zs', hfill, hp', hlen⟩ := (hp.fill maxReadCycle).2 (by omega)
        have hih := ih hp' (by simp only [maxReadCycle] at hlen; omega)
        simp [ZcReader.waitRead, hlt, hfill, hih]
    · obtain ⟨rfl, rfl, rfl⟩ := (Pulls.enough hlt).unique hp
      simp [ZcReader.waitRead, hlt]

def Clean (src : Source) (z : ZcReader) : Prop := (src z.reads).num = 0 → ¬ z.fits

/-- The next `Read` of a request for `n` bytes: moreover, it does not return an error together with
the bytes that make the request complete. -/
def Fair (src : Source) (n : Int) (z : ZcReader) : Prop :=
  z.Clean src ∧ ((src z.reads).err ≠ none → z.len + (src z.reads).num < n)

structure Filled (src : Source) (n : Int) (z : ZcReader) (bs : List UInt8) (zs : List ZcReader)
    (r : Option SourceErr) (z' : ZcReader) (bs' : List UInt8) : Prop where
  holds : z'.Holds bs'
  ended : r ≠ none → ∃ i, z'.reads = i + 1 ∧ (src i).err ≠ none
  clean : (∀ y ∈ zs, y.Clean src) → ∃ bs₁, bs' = bs ++ bs₁ ∧
    src.first z'.reads = src.first z.reads ++ bs₁
  dirty : (∃ y ∈ zs, ¬ y.Clean src) →
    (src.first z'.reads).length + bs.length < (src.first z.reads).length + bs'.length
  fair : (∀ y ∈ zs, y.Clean src) → ((∀ y ∈ zs, y.Fair src n) ↔ (r ≠ none → bs'.length < n))

theorem Filled.length_le (hf : Filled src n z bs zs r z' bs') :
    (src.first z'.reads).length + bs.length ≤ (src.first z.reads).length + bs'.length := by
  by_cases hc : ∀ y ∈ zs, y.Clean src
  · obtain ⟨bs₁, rfl, hfirst⟩ := hf.clean hc
    rw [hfirst, List.length_append, List.length_append]
    omega
  · simp only [not_forall] at hc
    obtain ⟨y, hy, hc⟩ := hc
    exact (hf.dirty ⟨y, hy, hc⟩).le

theorem Pulls.filled (hp : Pulls cfg src n z zs r z') (hl : src.Lawful) (hz : z.Holds bs) :
    ∃ bs', Filled src n z bs zs r z' bs' := by
  induction hp generalizing bs with
  | enough => exact ⟨bs, hz, by simp, fun _ => ⟨[], by simp⟩, by simp, by simp⟩
  | @failed z z' err hlt hc =>
    obtain ⟨z₁, extra, hc', hz', hreads, hclean, hdirty⟩ := hz.cycle cfg (hl.sane z.reads)
    obtain ⟨herr, rfl⟩ : some err = (src z.reads).err ∧ z' = z₁ := by simpa using hc.symm.trans hc'
    have hnum := (hl.sane z.reads).length_bytes
    refine ⟨bs ++ extra, hz', fun _ => ⟨z.reads, hreads, by simp [← herr]⟩, fun h => ?_,
      fun h => ?_, fun h => ?_⟩
    · rw [hclean (h z (by simp)), hreads]
      exact ⟨_, rfl, Source.first_succ⟩
    · obtain ⟨h0, hfit⟩ : (src z.reads).num = 0 ∧ z.fits := by simpa [Clean] using h
      have hpos := List.length_pos_iff.mpr (hdirty h0 hfit)
      rw [hreads, Source.first_succ, List.length_append, List.length_append]
      omega
    · have hcl := h z (by simp)
      rw [hclean hcl, List.length_append]
      simp only [List.mem_singleton, forall_eq, Fair, hcl, true_and, ← herr, hz.len]
      simp
      omega
  | @more z z₂ z' zs r hlt hc _ ih =>
    obtain ⟨z₁, extra, hc', hz₁, hreads, hclean, hdirty⟩ := hz.cycle cfg (hl.sane z.reads)
    obtain ⟨herr, rfl⟩ : none = (src z.reads).err ∧ z₂ = z₁ := by simpa using hc.symm.trans hc'
    obtain ⟨bs', hf⟩ := ih hz₁
    have hle := hf.length_le
    have hnum := (hl.sane z.reads).length_bytes
    rw [hreads, Source.first_succ, List.length_append, List.length_append] at hle
    refine ⟨bs', hf.holds, hf.ended, fun h => ?_, fun h => ?_, fun h => ?_⟩
    · obtain ⟨bs₁, rfl, hfirst⟩ := hf.clean fun y hy => h y (by simp [hy])
      rw [hclean (h z (by simp))]
      refine ⟨(src z.reads).bytes ++ bs₁, List.append_assoc .., ?_⟩
      rw [hfirst, hreads, Source.first_succ, List.append_assoc]
    · by_cases hcl : z.Clean src
      · obtain ⟨y, hy, hyc⟩ := h
        rcases List.mem_cons.mp hy with rfl | hy
        · exact absurd hcl hyc
        · have hlt := hf.dirty ⟨y, hy, hyc⟩
          rw [hreads, Source.first_succ, hclean hcl, List.length_append, List.length_append] at hlt
          omega
      · obtain ⟨h0, hfit⟩ : (src z.reads).num = 0 ∧ z.fits := by simpa [Clean] using hcl
        have hpos := List.length_pos_iff.mpr (hdirty h0 hfit)
        omega
    · have hcl := h z (by simp)
      rw [← hf.fair fun y hy => h y (by simp [hy])]
      simp [Fair, hcl, ← herr]

theorem Holds.cycle_cases (cfg : Config) (hl : src.Lawful) (hz : z.Holds bs) :
    (∃ err z', z.cycle cfg src = some (some err, z')) ∨
      ∃ z' bs', z.cycle cfg src = some (none, z') ∧ (src z.reads).err = none ∧ z'.Holds bs' ∧
        z'.reads = z.reads + 1 ∧ bs.length + (src z.reads).num ≤ bs'.length := by
  obtain ⟨z', extra, hc, hz', hreads, hclean, hdirty⟩ := hz.cycle cfg (hl.sane z.reads)
  cases herr : (src z.reads).err with
  | some err => exact .inl ⟨err, z', by rw [hc, herr]⟩
  | none =>
    refine .inr ⟨z', _, by rw [hc, herr], rfl, hz', hreads, ?_⟩
    have hnum := (hl.sane z.reads).length_bytes
    rw [List.length_append]
    by_cases hcl : z.Clean src
    · rw [hclean hcl]
      omega
    · obtain ⟨h0, -⟩ : (src z.reads).num = 0 ∧ z.fits := by simpa [Clean] using hcl
      omega

theorem exists_pulls (cfg : Config) (n : Int) (hl : src.Lawful) (hz : z.Holds bs) :
    ∃ zs r z', Pulls cfg src n z zs r z' := by
  -- `g` bytes are missing; there are at most `d` empty `Read`s before data or an error comes
  obtain ⟨g, hg⟩ : ∃ g : Nat, n ≤ bs.length + g := ⟨n.toNat, by omega⟩
  induction g using Nat.strong_induction_on generalizing z bs with
  | _ g ihg =>
    obtain ⟨m, hm, hprog⟩ := hl.goes_on z.reads
    obtain ⟨d, rfl⟩ : ∃ d, m = z.reads + d := ⟨m - z.reads, by omega⟩
    clear hm
    induction d generalizing z bs with
    | zero =>
      by_cases hlt : z.len < n
      · rcases hz.cycle_cases cfg hl with ⟨err, z', hc⟩ | ⟨z₁, bs₁, hc, herr, hz₁, -, hlen⟩
        · exact ⟨_, _, _, .failed hlt hc⟩
        · rw [hz.len] at hlt
          have hnum : 0 < (src z.reads).num := hprog.resolve_right (by simpa using herr)
          obtain ⟨zs, r, z', hp⟩ := ihg (g - 1) (by omega) hz₁ (by omega)
          exact ⟨_, _, _, .more (by rwa [hz.len]) hc hp⟩
      · exact ⟨_, _, _, .enough hlt⟩
    | succ d ihd =>
      by_cases hlt : z.len < n
      · rcases hz.cycle_cases cfg hl with ⟨err, z', hc⟩ | ⟨z₁, bs₁, hc, -, hz₁, hreads, hlen⟩
        · exact ⟨_, _, _, .failed hlt hc⟩
        · have hnum := (hl.sane z.reads).1
          obtain ⟨zs, r, z', hp⟩ := ihd hz₁ (by omega)
            (by rwa [show z₁.reads + d = z.reads + (d + 1) by omega])
          exact ⟨_, _, _, .more hlt hc hp⟩
      · exact ⟨_, _, _, .enough hlt⟩

theorem waitRead_mono {fuel fuel' : Nat} {x : Option Err × ZcReader}
    (hw : ZcReader.waitRead cfg src n fuel z = some x) (hf : fuel ≤ fuel') :
    ZcReader.waitRead cfg src n fuel' z = some x := by
  induction fuel generalizing z fuel' with
  | zero => cases hw
  | succ fuel ih =>
    obtain ⟨f, rfl⟩ : ∃ f, fuel' = f + 1 := ⟨fuel' - 1, by omega⟩
    by_cases hlt : z.len < n
    · simp only [ZcReader.waitRead, if_pos hlt, Option.bind_eq_bind] at hw ⊢
      obtain ⟨⟨err, z₁⟩, hfill, hw⟩ := Option.bind_eq_some_iff.mp hw
      rw [hfill, Option.bind_some]
      cases err with
      | some err => exact hw
      | none => exact ih hw (by omega)
    · simpa [ZcReader.waitRead, hlt] using hw

theorem Pulls.waitRead_eq (hp : Pulls cfg src n z zs r z') {fuel : Nat} {x : Option Err × ZcReader}
    (hw : ZcReader.waitRead cfg src n fuel z = some x) : x = (r.map SourceErr.raised, z') := by
  have h₁ := waitRead_mono hw (Nat.le_max_left fuel (zs.length + 1))
  have h₂ := hp.waitRead (Nat.lt_of_succ_le (Nat.le_max_right fuel (zs.length + 1)))
  simpa using h₁.symm.trans h₂

def Reply.ok : Reply → Bool
  | .failed _ | .of (.error _) => false
  | .of _ => true

def Call.request : Call → Option Int
  | .next n | .peek n | .skip n | .slice n | .readString n | .readBinary n => some n
  | .readByte => some 1
  | .release | .readUntil _ => none

def Call.taken (r : Reply) : Call → Nat
  | .next n | .skip n | .slice n | .readString n | .readBinary n => if r.ok then n.toNat else 0
  | .readByte => if r.ok then 1 else 0
  | .peek _ | .release => 0
  | .readUntil _ =>
    match r with
    | .of (.bytes s) => s.len
    | _ => 0

def Call.act (cfg : Config) : Call → ZcReader → Option (Reply × ZcReader)
  | .next n => onBuf cfg (.next n)
  | .peek n => onBuf cfg (.peek n)
  | .skip n => onBuf cfg (.skip n)
  | .slice n => bufSlice cfg n
  | .readString n => onBuf cfg (.readString n)
  | .readBinary n => onBuf cfg (.readBinary n)
  | .readByte => onBuf cfg .readByte
  | .release => onBuf cfg .release
  | .readUntil delim => onBuf cfg (.readUntil delim)

theorem call_eq (hc : c.request = some n) (fuel : Nat) :
    z.call cfg src fuel c = waiting cfg src fuel n (c.act cfg) z := by
  cases c <;> cases hc <;> rfl

def Gives (z : ZcReader) (seg : List UInt8) : Call → Out → Prop
  | .next _, .bytes s | .peek _, .bytes s | .readString _, .bytes s | .readBinary _, .bytes s =>
    z.heap.bytes s = seg
  | .readByte, .byte x => seg = [x]
  | .slice _, .done => ∃ rd ∈ z.slices.getLast?, rd.length = seg.length ∧ z.heap.look
      (rd.readable z.heap) = seg
  | .skip _, .done => True
  | _, _ => False

theorem Call.act_onBuf {a : Act} {o : Out} {b' : LinkBuffer} {h' : Heap} {seg : List UInt8}
    (hc : c.act cfg = onBuf cfg a) (hr : z.buf.run cfg z.heap a = some (o, b', h'))
    (hok : (Reply.of o).ok) (hset : Settled h' b' z.slices bs')
    (hg : Gives { z with heap := h', buf := b' } seg c o) :
    ∃ z', c.act cfg z = some (.of o, z') ∧ (Reply.of o).ok ∧ z'.reads = z.reads ∧ z'.Holds bs' ∧
      z'.Gives seg c o :=
  ⟨{ z with heap := h', buf := b' }, by rw [hc, onBuf, hr]; rfl, hok, rfl, hset, hg⟩

theorem Holds.act (cfg : Config) (hz : z.Holds bs) (hc : c.request = some n) (hn : n ≤ bs.length) :
    ∃ o z', c.act cfg z = some (.of o, z') ∧ (Reply.of o).ok ∧ z'.reads = z.reads ∧
      z'.Holds (bs.drop (c.taken (.of o))) ∧ z'.Gives (bs.take n.toNat) c o := by
  cases c with
  | next k =>
    cases hc
    obtain ⟨s, b', h', hrun, hset, hbytes⟩ := Settled.next hz hn
    exact ⟨.bytes s, Call.act_onBuf rfl (by rw [LinkBuffer.run, hrun]; rfl) rfl hset hbytes⟩
  | peek k =>
    cases hc
    obtain ⟨s, b', h', hrun, hset, hbytes⟩ := Settled.peek hz hn
    exact ⟨.bytes s, Call.act_onBuf rfl (by rw [LinkBuffer.run, hrun]; rfl) rfl hset hbytes⟩
  | skip k =>
    cases hc
    obtain ⟨b', h', hrun, hset⟩ := Settled.skip hz hn
    exact ⟨.done, Call.act_onBuf rfl (by rw [LinkBuffer.run, hrun]; rfl) rfl hset trivial⟩
  | slice k =>
    cases hc
    obtain ⟨rd, b', h', hrun, hset, hlen, hlook⟩ := Settled.slice cfg hz hn
    refine ⟨.done, { z with heap := h', buf := b', slices := z.slices ++ [rd] },
      by simp [Call.act, bufSlice, hrun], rfl, rfl, hset, rd, by simp, ?_, hlook⟩
    rw [hlen, List.length_take]
    omega
  | readString k =>
    cases hc
    obtain ⟨s, b', h', hrun, hset, hbytes⟩ := Settled.readString cfg hz hn
    exact ⟨.bytes s, Call.act_onBuf rfl (by rw [LinkBuffer.run, hrun]; rfl) rfl hset hbytes⟩
  | readBinary k =>
    cases hc
    obtain ⟨s, b', h', hrun, hset, hbytes⟩ := Settled.readBinary cfg hz hn
    exact ⟨.bytes s, Call.act_onBuf rfl (by rw [LinkBuffer.run, hrun]; rfl) rfl hset hbytes⟩
  | readByte =>
    cases hc
    obtain ⟨x, b', h', hrun, hset, hx⟩ := Settled.readByte hz (by omega)
    exact ⟨.byte x, Call.act_onBuf rfl (by rw [LinkBuffer.run, hrun]; rfl) rfl hset hx⟩
  | release | readUntil => cases hc

theorem Call.taken_le (hc : c.request = some n) (rp : Reply) : c.taken rp ≤ n.toNat := by
  cases c <;> cases hc <;> simp only [Call.taken, Nat.zero_le] <;> split <;> simp

structure Answered (n : Int) (c : Call) (r : Option SourceErr) (bs : List UInt8) (rp : Reply)
    (z : ZcReader) :
    Prop where
  holds : z.Holds (bs.drop (c.taken rp))
  failed : r ≠ none → rp.ok = false ∧ c.taken rp = 0
  given : r = none → n ≤ bs.length ∧ rp.ok ∧ ∃ o, rp = .of o ∧ z.Gives (bs.take n.toNat) c o

theorem Answered.taken_le (ha : Answered n c r bs rp z) (hc : c.request = some n) :
    c.taken rp ≤ bs.length := by
  by_cases hr : r = none
  · have := c.taken_le hc rp
    have := (ha.given hr).1
    omega
  · rw [(ha.failed hr).2]
    exact Nat.zero_le _

theorem Pulls.call (hp : Pulls cfg src n z zs r z₁) (hl : src.Lawful) (hz : z.Holds bs)
    (hc : c.request = some n) :
    ∃ rp z' bs₁, Filled src n z bs zs r z₁ bs₁ ∧ Answered n c r bs₁ rp z' ∧ z'.reads = z₁.reads ∧
      (∀ fuel, zs.length < fuel → z.call cfg src fuel c = some (rp, z')) ∧
      ∀ fuel x, z.call cfg src fuel c = some x → x = (rp, z') := by
  obtain ⟨bs₁, hf⟩ := hp.filled hl hz
  obtain ⟨rp, z', hthen, ha, hreads⟩ : ∃ rp z', (∀ fuel, z.waitRead cfg src n fuel =
        some (r.map SourceErr.raised, z₁) → z.call cfg src fuel c = some (rp, z')) ∧
      Answered n c r bs₁ rp z' ∧ z'.reads = z₁.reads := by
    cases r with
    | some err =>
      have htaken : c.taken (.failed err.raised) = 0 := by cases c <;> rfl
      have hthen : ∀ fuel, z.waitRead cfg src n fuel = some (some err.raised, z₁) →
          z.call cfg src fuel c = some (.failed err.raised, z₁) := fun fuel h => by
        rw [call_eq hc, waiting, h]
        rfl
      exact ⟨_, _, hthen,
        ⟨by rw [htaken]; exact hf.holds, fun _ => ⟨rfl, htaken⟩, fun h => by cases h⟩, rfl⟩
    | none =>
      have hn : n ≤ bs₁.length := by
        have := hp.not_lt rfl
        rw [hf.holds.len] at this
        omega
      obtain ⟨o, z', hact, hok, hreads, hz', hgives⟩ := hf.holds.act cfg hc hn
      have hthen : ∀ fuel, z.waitRead cfg src n fuel = some (none, z₁) →
          z.call cfg src fuel c = some (_, z') := fun fuel h => by
        rw [call_eq hc, waiting, h]
        exact hact
      exact ⟨_, z', hthen, ⟨hz', fun h => absurd rfl h, fun _ => ⟨hn, hok, o, rfl, hgives⟩⟩, hreads⟩
  refine ⟨rp, z', bs₁, hf, ha, hreads, fun fuel hfuel => hthen fuel (hp.waitRead hfuel),
    fun fuel x hx => ?_⟩
  have hx' := hx
  rw [call_eq hc] at hx'
  obtain ⟨y, hy, -⟩ := Option.bind_eq_some_iff.mp hx'
  obtain rfl := hp.waitRead_eq hy
  exact Option.some.inj (hx.symm.trans (hthen fuel hy))

theorem Holds.call (cfg : Config) (src : Source) (hz : z.Holds bs) (hc : c.request = none) :
    ∃ rp z', z'.reads = z.reads ∧ z'.Holds (bs.drop (c.taken rp)) ∧ c.taken rp ≤ bs.length ∧
      ∀ fuel, z.call cfg src fuel c = some (rp, z') := by
  cases c with
  | release =>
    obtain ⟨b', h', hrel, hset⟩ := Settled.release hz
    exact ⟨.of .done, { z with heap := h', buf := b' }, rfl, hset, Nat.zero_le _, fun _ => by
      simp [ZcReader.call, ZcReader.release, onBuf, LinkBuffer.run, hrel]⟩
  | readUntil delim =>
    rcases Settled.readUntil hz delim with ⟨-, hrun⟩ | ⟨i, s, b', h', hi, hrun, hset, hbytes⟩
    · exact ⟨.of (.error "link buffer read slice cannot find delim"), z, rfl, hz, Nat.zero_le _,
        fun _ => by
        simp [ZcReader.call, ZcReader.readUntil, onBuf, LinkBuffer.run, hrun, Out.of]⟩
    · have hlen : s.len = i + 1 := by
        have hlt := (List.idxOf?_eq_some_iff.mp hi).1
        have := congrArg List.length hbytes
        simp only [Heap.bytes, Lib.Memory.length_load, List.length_take] at this
        omega
      refine ⟨.of (.bytes s), { z with heap := h', buf := b' }, rfl, ?_, ?_, fun _ => by
        simp [ZcReader.call, ZcReader.readUntil, onBuf, LinkBuffer.run, hrun, Out.of]⟩
      · simp only [Call.taken, hlen]
        exact hset
      · have hlt := (List.idxOf?_eq_some_iff.mp hi).1
        simp only [Call.taken, hlen]
        omega
  | _ => cases hc

structure Session where
  reader : ZcReader
  pos : Nat := 0

namespace Session

def start (cfg : Config) (mem : Nat → Nat → UInt8) (picks : Nat → Nat) : Session where
  reader := newZCReader (World.start mem picks).heap cfg

def step (cfg : Config) (src : Source) (s : Session) (l : Nat × Call) : Option Session :=
  (s.reader.call cfg src l.1 l.2).map fun (rp, z) => ⟨z, s.pos + l.2.taken rp⟩

def Presents (src : Source) (s : Session) : Prop :=
  ∃ bs, bs.length = s.pos ∧ src.first s.reader.reads = bs ++ s.reader.held

end Session

/-- A request for `n` bytes succeeds if and only if so many of the stream have not been consumed; it
returns the next `n` bytes, and leaves those behind them. -/
structure Obeys (src : Source) (s : Session) (c : Call) (n : Int) (rp : Reply) (z : ZcReader) :
    Prop where
  succeeds : rp.ok ↔ ∃ k, s.pos + n ≤ (src.first k).length
  gives : ∀ o, rp = .of o → rp.ok → z.Gives (((src.first z.reads).drop s.pos).take n.toNat) c o
  presents : Session.Presents src ⟨z, s.pos + c.taken rp⟩

variable {s : Session}

/-- Each `Read` that a request makes is fair. -/
def Meets (cfg : Config) (src : Source) (z : ZcReader) (c : Call) : Prop :=
  ∀ n ∈ c.request, ∀ zs r z', Pulls cfg src n z zs r z' → ∀ y ∈ zs, y.Fair src n

theorem Pulls.meets (hp : Pulls cfg src n z zs r z') (hc : c.request = some n) :
    z.Meets cfg src c ↔ ∀ y ∈ zs, y.Fair src n := by
  refine ⟨fun hm => hm n hc zs r z' hp, fun hf m hm zs' r' z'' hp' => ?_⟩
  obtain rfl : n = m := by simpa [hc] using hm
  obtain ⟨rfl, rfl, rfl⟩ := hp.unique hp'
  exact hf

theorem Holds.presents {u : List UInt8} (hz : z.Holds (bs.drop k)) (hk : k ≤ bs.length)
    (hall : src.first z.reads = u ++ bs) : Session.Presents src ⟨z, u.length + k⟩ := by
  refine ⟨u ++ bs.take k, ?_, ?_⟩
  · rw [List.length_append, List.length_take, Nat.min_eq_left hk]
  · rw [hz.held, List.append_assoc, List.take_append_drop, hall]

theorem Filled.obeys_iff (hf : Filled src n s.reader bs zs r z₁ bs') (hl : src.Lawful)
    (hz : s.reader.Holds bs) (hs : s.Presents src) (hc : c.request = some n)
    (ha : Answered n c r bs' rp z') (hreads : z'.reads = z₁.reads) :
    Obeys src s c n rp z' ↔ ∀ y ∈ zs, y.Fair src n := by
  obtain ⟨u, hu, hfirst⟩ := hs
  rw [hz.held] at hfirst
  have htaken := ha.taken_le hc
  constructor
  · intro hO
    obtain ⟨u', hu', hfirst'⟩ := hO.presents
    have hlen : (src.first z₁.reads).length = s.pos + bs'.length := by
      simp only [hreads, ha.holds.held] at hfirst' hu'
      rw [hfirst', List.length_append, hu', List.length_drop]
      omega
    have hclean : ∀ y ∈ zs, y.Clean src := by
      by_contra hd
      simp only [not_forall] at hd
      obtain ⟨y, hy, hd⟩ := hd
      have := hf.dirty ⟨y, hy, hd⟩
      rw [hfirst, List.length_append, hu] at this
      omega
    refine (hf.fair hclean).mpr fun hr => ?_
    have hno := hO.succeeds.not.mp (by simp [(ha.failed hr).1])
    have := not_exists.mp hno z₁.reads
    omega
  · intro hfair
    have hclean : ∀ y ∈ zs, y.Clean src := fun y hy => (hfair y hy).1
    obtain ⟨bs₁, rfl, hmore⟩ := hf.clean hclean
    have hall : src.first z'.reads = u ++ (bs ++ bs₁) := by
      rw [hreads, hmore, hfirst, List.append_assoc]
    have hpresents : Session.Presents src ⟨z', s.pos + c.taken rp⟩ := hu ▸
      ha.holds.presents htaken hall
    by_cases hr : r = none
    · obtain ⟨hn, hok, o, rfl, hgives⟩ := ha.given hr
      refine ⟨iff_of_true hok ⟨z'.reads, ?_⟩, fun o' ho' _ => ?_, hpresents⟩
      · rw [hall, List.length_append, hu]
        omega
      · cases ho'
        rwa [hall, List.drop_left' hu]
    · obtain ⟨hok, htaken⟩ := ha.failed hr
      obtain ⟨i, hi, herr⟩ := hf.ended hr
      refine ⟨iff_of_false (by simp [hok]) fun ⟨k, hk⟩ => ?_, fun o _ ho => by simp [hok] at ho,
        hpresents⟩
      have hle := hl.length_first_le herr k
      have hlt := (hf.fair hclean).mp hfair hr
      rw [← hi, ← hreads, hall, List.length_append, hu] at hle
      omega

theorem run_presents {mem : Nat → Nat → UInt8} {picks : Nat → Nat} (hl : src.Lawful)
    (hs : Reach (Session.step cfg src) (fun s l => s.reader.Meets cfg src l.2)
      (.start cfg mem picks) s) :
    (∃ bs, s.reader.Holds bs) ∧ s.Presents src := by
  refine hs.invariant (I := fun s => (∃ bs, s.reader.Holds bs) ∧ s.Presents src) ?_
    fun s l s' hI hm hstep => ?_
  · have hz := holds_newZCReader cfg mem picks
    exact ⟨⟨_, hz⟩, [], rfl, by rw [Session.start, hz.held]; rfl⟩
  · obtain ⟨⟨bs, hz⟩, hpr⟩ := hI
    obtain ⟨fuel, c⟩ := l
    obtain ⟨⟨rp, z'⟩, hcall, rfl⟩ := Option.map_eq_some_iff.mp hstep
    cases hc : c.request with
    | some n =>
      obtain ⟨zs, r, z₁, hp⟩ := exists_pulls cfg n hl hz
      obtain ⟨rp', z'', bs₁, hf, ha, hreads, -, huniq⟩ := hp.call hl hz hc
      cases huniq fuel _ hcall
      exact ⟨⟨_, ha.holds⟩,
        ((hf.obeys_iff hl hz hpr hc ha hreads).mpr ((hp.meets hc).mp hm)).presents⟩
    | none =>
      obtain ⟨rp', z'', hreads, hz', hk, hcall'⟩ := hz.call cfg src hc
      cases hcall.symm.trans (hcall' fuel)
      obtain ⟨u, hu, hfirst⟩ := hpr
      rw [hz.held, ← hreads] at hfirst
      exact ⟨⟨_, hz'⟩, hu ▸ hz'.presents hk hfirst⟩

/-- In every run of calls whose `Read`s are all fair, a request returns, and does what it should if
and only if its own `Read`s are fair. -/
theorem requests_obeyed {mem : Nat → Nat → UInt8} {picks : Nat → Nat} (hl : src.Lawful)
    (hs : Reach (Session.step cfg src) (fun s l => s.reader.Meets cfg src l.2)
      (.start cfg mem picks) s)
    (hc : c.request = some n) :
    s.Presents src ∧ ∃ rp z' f, (∀ fuel, f < fuel → s.reader.call cfg src fuel c = some (rp, z')) ∧
      (Obeys src s c n rp z' ↔ s.reader.Meets cfg src c) := by
  obtain ⟨⟨bs, hz⟩, hpr⟩ := run_presents hl hs
  obtain ⟨zs, r, z₁, hp⟩ := exists_pulls cfg n hl hz
  obtain ⟨rp, z', bs₁, hf, ha, hreads, hcall, -⟩ := hp.call hl hz hc
  exact ⟨hpr, rp, z', zs.length, hcall,
    (hf.obeys_iff hl hz hpr hc ha hreads).trans (hp.meets hc).symm⟩

def Source.chunk (bs : List UInt8) (err : Option SourceErr) : Source
  | 0 => ⟨bs, bs.length, err⟩
  | _ + 1 => ⟨[], 0, some .eof⟩

theorem Source.lawful_chunk (hb : bs.length ≤ block4k) (err : Option SourceErr) :
    (Source.chunk bs err).Lawful where
  sane k := by cases k <;> simp [Source.chunk, Read.Sane, hb]
  last {i k} hik _ := by
    obtain ⟨m, rfl⟩ : ∃ m, k = m + 1 := ⟨k - 1, by omega⟩
    rfl
  goes_on k := ⟨k + 1, by omega, .inr (by simp [Source.chunk])⟩

/-- Bytes that come together with the error are in the buffer, but the request for them fails; and
after an empty `Read` a node of 8192 bytes gives bytes that are not from the source. -/
theorem requests_disobeyed :
    (∃ z', (Session.start ⟨4096, false⟩ (fun _ _ => 0) fun _ => 0).reader.call ⟨4096, false⟩
        (.chunk [1, 2] (some .eof)) 2 (.next 2) = some (.failed .errEOF, z') ∧ z'.len = 2 ∧
      ¬ Obeys (.chunk [1, 2] (some .eof)) (.start ⟨4096, false⟩ (fun _ _ => 0) fun _ => 0)
        (.next 2) 2 (.failed .errEOF) z') ∧
      ∃ z', (Session.start ⟨8192, false⟩ (fun _ _ => 0) fun _ => 0).reader.call ⟨8192, false⟩
        (.chunk [1] none) 2 (.next 2) = some (.failed .errEOF, z') ∧ z'.reads = 2 ∧
      Source.first (.chunk [1] none) 2 = [1] ∧ z'.len = 4097 := by
  refine ⟨⟨_, rfl, rfl, fun hO => ?_⟩, _, rfl, rfl, rfl, rfl⟩
  have hok := hO.succeeds.mpr ⟨1, by decide⟩
  cases hok

theorem meets_chunk (x y : UInt8) (hc : c.request = some 1) :
    (Session.start ⟨4096, false⟩ (fun _ _ => 0) fun _ => 0).reader.Meets ⟨4096, false⟩
    (.chunk [x, y] none) c := by
  obtain ⟨z₁, hcycle, hlen⟩ : ∃ z₁,
    (Session.start ⟨4096, false⟩ (fun _ _ => 0) fun _ => 0).reader.cycle ⟨4096, false⟩
      (.chunk [x, y] none) = some (none, z₁) ∧ z₁.len = 2 := ⟨_, rfl, rfl⟩
  have hp := Pulls.more (n := 1) (by decide) hcycle (.enough (by omega))
  exact (hp.meets hc).mpr (by simp [Fair, Clean, Source.chunk, Session.start, newZCReader])

theorem requests_obeyed_two : ∃ s rp z' f,
    Session.step ⟨4096, false⟩ (.chunk [1, 2] none) (.start ⟨4096, false⟩ (fun _ _ => 0) fun _ => 0)
      (2, .next 1) = some s ∧ s.pos = 1 ∧
    (∀ fuel, f < fuel → s.reader.call ⟨4096, false⟩ (.chunk [1, 2] none) fuel (.peek 1) =
      some (rp, z')) ∧
    Obeys (.chunk [1, 2] none) s (.peek 1) 1 rp z' := by
  obtain ⟨s, hstep, hpos, hlen⟩ : ∃ s,
      Session.step ⟨4096, false⟩ (.chunk [1, 2] none)
      (.start ⟨4096, false⟩ (fun _ _ => 0) fun _ => 0)
        (2, .next 1) = some s ∧ s.pos = 1 ∧ s.reader.len = 1 := ⟨_, rfl, rfl, rfl⟩
  have hp : Pulls ⟨4096, false⟩ (.chunk [1, 2] none) 1 s.reader [] none s.reader :=
    .enough (by omega)
  obtain ⟨-, rp, z', f, hcall, hiff⟩ := requests_obeyed (c := .peek 1) (n := 1)
    (Source.lawful_chunk (by decide) none) (.tail .refl (meets_chunk 1 2 rfl) hstep) rfl
  exact ⟨s, rp, z', f, hstep, hpos, hcall, hiff.mpr ((hp.meets rfl).mpr (by simp))⟩

/-- What `Until` should return for the stream `stream`, if `left` is unread afterwards. -/
def UntilReturns (delim : UInt8) (stream left : List UInt8) (rp : Reply) (h : Heap) : Prop :=
  ∃ line err, Input.Until.Answers delim stream left line err ∧
    match rp with
    | .of (.bytes s) => h.bytes s = line ∧ err = none
    | .of (.error _) => line = [] ∧ err ≠ none
    | _ => False

theorem Session.Presents.drop_pos
    (hp : s.Presents src) (hl : src.Lawful) (he : (src i).err ≠ none) :
    (src.first (i + 1)).drop s.pos =
      s.reader.held ++ (src.first (i + 1)).drop (src.first s.reader.reads).length := by
  obtain ⟨u, hu, hfirst⟩ := hp
  rw [← hu]
  by_cases hik : i < s.reader.reads
  · rw [← hl.first_eq he hik, List.drop_length, hfirst, List.append_nil, List.drop_left]
  · obtain ⟨t, ht⟩ := src.first_mono (i := s.reader.reads) (k := i + 1) (by omega)
    rw [← ht, List.drop_left, hfirst, List.append_assoc, List.drop_left]

/-- `Until` returns what it should if and only if the delimiter is in the buffer already, or nothing
is left to read. -/
theorem readUntil_buffered {mem : Nat → Nat → UInt8} {picks : Nat → Nat} (hl : src.Lawful)
    (he : (src i).err ≠ none)
    (hs : Reach (Session.step cfg src) (fun s l => s.reader.Meets cfg src l.2)
      (.start cfg mem picks) s)
    (delim : UInt8) :
    ∃ rp z', s.reader.readUntil cfg delim = some (rp, z') ∧
      (UntilReturns delim ((src.first (i + 1)).drop s.pos)
          (z'.held ++ (src.first (i + 1)).drop (src.first z'.reads).length) rp z'.heap ↔
        delim ∈ s.reader.held ∨ (src.first (i + 1)).drop s.pos = []) := by
  obtain ⟨⟨bs, hz⟩, hpr⟩ := run_presents hl hs
  rw [hpr.drop_pos hl he, hz.held]
  generalize hrest : (src.first (i + 1)).drop (src.first s.reader.reads).length = rest
  rcases Settled.readUntil hz delim with ⟨hno, hrun⟩ | ⟨j, t, b', h', hj, hrun, hset, hbytes⟩
  · refine ⟨.of (.error "link buffer read slice cannot find delim"), s.reader, ?_, ?_⟩
    · simp [ZcReader.readUntil, onBuf, LinkBuffer.run, hrun, Out.of]
    rw [hrest, hz.held]
    constructor
    · rintro ⟨line, err, hA, rfl, herr⟩
      by_cases hd : delim ∈ bs ++ rest
      · exact absurd (hA.found hd).1 herr
      · exact .inr (hA.missed hd).2.symm
    · rintro (hd | hnil)
      · exact absurd hd hno
      · rw [hnil]
        exact ⟨[], some (.eof ""), ⟨rfl, fun hd => (by cases hd), fun _ => ⟨rfl, rfl⟩⟩,
          rfl, by simp⟩
  · have hz' : Holds { s.reader with heap := h', buf := b' } (bs.drop (j + 1)) := hset
    refine ⟨.of (.bytes t), { s.reader with heap := h', buf := b' }, ?_, ?_⟩
    · simp [ZcReader.readUntil, onBuf, LinkBuffer.run, hrun, Out.of]
    rw [hz'.held]
    have hfirst := Input.Until.First.of_idxOf hj
    have hle : j + 1 ≤ bs.length := hfirst.lt
    have hA := (hfirst.append rest).answers
    rw [List.drop_append_of_le_length hle, List.take_append_of_le_length hle] at hA
    refine iff_of_true ⟨bs.take (j + 1), none, ?_, hbytes, rfl⟩ (.inl ?_)
    · simpa only [hrest] using hA
    · obtain ⟨line, rest', rfl, -⟩ := hfirst
      simp

/-- Nothing has been read from the source yet. -/
theorem readUntil_misses :
    ∃ z', (Session.start ⟨4096, false⟩ (fun _ _ => 0) fun _ => 0).reader.readUntil
      ⟨4096, false⟩ 10 = some (.of (.error "link buffer read slice cannot find delim"), z') ∧
    Source.first (.chunk [97, 10] none) 2 = [97, 10] ∧
    ∀ left, ¬ UntilReturns 10 [97, 10] left
      (.of (.error "link buffer read slice cannot find delim")) z'.heap := by
  refine ⟨_, rfl, rfl, ?_⟩
  rintro left ⟨line, err, hA, -, herr⟩
  exact herr (hA.found (by decide)).1

theorem readUntil_buffered_line : ∃ s rp z',
    Session.step ⟨4096, false⟩ (.chunk [97, 10] none)
      (.start ⟨4096, false⟩ (fun _ _ => 0) fun _ => 0)
      (2, .skip 1) = some s ∧ s.reader.readUntil ⟨4096, false⟩ 10 = some (rp, z') ∧
    UntilReturns 10 ((Source.first (.chunk [97, 10] none) 2).drop s.pos) (z'.held ++
      (Source.first (.chunk [97, 10] none) 2).drop
      (Source.first (.chunk [97, 10] none) z'.reads).length) rp z'.heap := by
  obtain ⟨s, hstep, hpos, hreads⟩ : ∃ s,
      Session.step ⟨4096, false⟩ (.chunk [97, 10] none)
      (.start ⟨4096, false⟩ (fun _ _ => 0) fun _ => 0)
        (2, .skip 1) = some s ∧ s.pos = 1 ∧ s.reader.reads = 1 := ⟨_, rfl, rfl, rfl⟩
  have hl : (Source.chunk [97, 10] none).Lawful := Source.lawful_chunk (by decide) none
  have hs : Reach (Session.step ⟨4096, false⟩ (.chunk [97, 10] none))
      (fun s l => s.reader.Meets ⟨4096, false⟩ (.chunk [97, 10] none) l.2) _ s :=
    .tail .refl (meets_chunk 97 10 rfl) hstep
  obtain ⟨rp, z', hrun, hiff⟩ := readUntil_buffered (i := 1) hl (by simp [Source.chunk]) hs 10
  obtain ⟨u, hu, hfirst⟩ := (run_presents hl hs).2
  have hheld : s.reader.held = [10] := by
    have := congrArg (List.drop s.pos) hfirst
    rw [← hu, List.drop_left, hu, hpos, hreads] at this
    exact this.symm
  exact ⟨s, rp, z', hstep, hrun, hiff.mpr (.inl (by simp [hheld]))⟩

end Netpoll.Nocopy.ZcReader
