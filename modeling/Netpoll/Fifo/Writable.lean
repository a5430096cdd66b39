import Mathlib.Tactic.Common
import Netpoll.Fifo.WriteFifo

namespace Netpoll.WriteFifo

open Netpoll.Poll.Handler

theorem sum_skip (n : Nat) (nodes : List Nat) : (skip n nodes).sum = nodes.sum - n := by
  induction nodes generalizing n with
  | nil => simp [skip]
  | cons l nodes ih =>
    simp only [skip, List.sum_cons]
    split
    · simp only [List.sum_cons]
      omega
    · rw [ih]
      omega

theorem sum_iovecs {total : Nat} {bs : List Nat} (h : total + bs.sum ≤ maxInt32) :
    (iovecs total bs).sum = bs.sum := by
  induction bs generalizing total with
  | nil => rfl
  | cons l bs ih =>
    simp only [List.sum_cons] at h
    simp only [iovecs]
    split_ifs with h0 hlt
    · simpa [h0] using ih (by omega)
    · simpa using ih (show total + l + bs.sum ≤ maxInt32 by omega)
    · simp only [List.sum_cons, List.sum_nil]
      omega

theorem sum_iovecs_le {total : Nat} {bs : List Nat} (ht : total ≤ maxInt32) :
    (iovecs total bs).sum ≤ maxInt32 - total := by
  induction bs generalizing total with
  | nil => simp [iovecs]
  | cons x bs ih =>
    simp only [iovecs]
    split_ifs with h0 hlt
    · exact ih ht
    · have := ih hlt.le
      simp only [List.sum_cons]
      omega
    · simp

theorem sum_iovecs_le_sum (total : Nat) (bs : List Nat) : (iovecs total bs).sum ≤ bs.sum := by
  induction bs generalizing total with
  | nil => exact Nat.le_refl 0
  | cons l bs ih =>
    simp only [iovecs]
    split_ifs with h0 hlt
    · exact (ih total).trans (by simp)
    · have := ih (total + l)
      simp only [List.sum_cons]
      omega
    · simp only [List.sum_cons, List.sum_nil]
      omega

theorem sum_filter_pos (nodes : List Nat) : (nodes.filter (0 < ·)).sum = nodes.sum := by
  induction nodes with
  | nil => rfl
  | cons l nodes ih =>
    rcases Nat.eq_zero_or_pos l with rfl | hl
    · simpa using ih
    · simp [hl, ih]

def chunks (nodes : List Nat) : Nat := (nodes.filter (0 < ·)).length

theorem sum_getBytes {cap : Nat} {nodes : List Nat} (h : chunks nodes ≤ cap) :
    (getBytes cap nodes).sum = nodes.sum := by
  rcases nodes.eq_nil_or_concat with rfl | ⟨front, last, rfl⟩
  · simp only [getBytes]
    split <;> simp
  · have hlen : (front.filter (0 < ·)).length + ([last].filter (0 < ·)).length ≤ cap := by
      simpa [chunks] using h
    have htake : (front.filter (0 < ·)).take cap = front.filter (0 < ·) :=
      List.take_of_length_le (by omega)
    simp only [getBytes, List.concat_eq_append, List.dropLast_concat, htake]
    split
    · simp [sum_filter_pos]
    · have h0 : last = 0 := by
        by_contra hne
        have : ([last].filter (0 < ·)).length = 1 := by simp [Nat.pos_of_ne_zero hne]
        omega
      simp [sum_filter_pos, h0]

theorem sum_iovecs_pos {total : Nat} {bs : List Nat} (ht : total < maxInt32) (hb : 0 < bs.sum) :
    0 < (iovecs total bs).sum := by
  induction bs generalizing total with
  | nil => simp at hb
  | cons l bs ih =>
    simp only [iovecs]
    split_ifs with h0 hlt
    · exact ih ht (by simpa [h0] using hb)
    · simp only [List.sum_cons]
      omega
    · simp only [List.sum_cons, List.sum_nil]
      omega

theorem sum_take_pos {bs : List Nat} {n : Nat} (hb : ∀ x ∈ bs, 0 < x) (hn : 0 < n)
    (hs : 0 < bs.sum) :
    0 < (bs.take n).sum := by
  obtain ⟨m, rfl⟩ := Nat.exists_eq_add_of_lt hn
  cases bs with
  | nil => simp at hs
  | cons x bs =>
    have := hb x (by simp)
    simp only [Nat.zero_add, List.take_succ_cons, List.sum_cons]
    omega

theorem sum_getBytes_pos {cap : Nat} {nodes : List Nat} (hc : 0 < cap) (hn : 0 < nodes.sum) :
    0 < (getBytes cap nodes).sum := by
  rcases nodes.eq_nil_or_concat with rfl | ⟨front, last, rfl⟩
  · simp at hn
  · rw [List.concat_eq_append, List.sum_append, List.sum_singleton, ← sum_filter_pos front] at hn
    simp only [getBytes, List.concat_eq_append, List.dropLast_concat, List.getLastD_concat]
    have hfront : 0 < (front.filter (0 < ·)).sum → 0 < ((front.filter (0 < ·)).take cap).sum :=
      sum_take_pos (fun x hx => by simpa using (List.mem_filter.mp hx).2) hc
    split_ifs with hlen
    · rw [List.sum_append, List.sum_singleton]
      omega
    · refine hfront ?_
      cases hf : front.filter (0 < ·) with
      | nil => exact absurd (by simpa [hf] using hc) hlen
      | cons x xs =>
        have : x ∈ front.filter (0 < ·) := by simp [hf]
        have : 0 < x := by simpa using (List.mem_filter.mp this).2
        rw [List.sum_cons]
        omega

theorem sum_getBytes_lt {cap : Nat} {nodes : List Nat} (h : cap < chunks nodes) :
    (getBytes cap nodes).sum < nodes.sum := by
  rcases nodes.eq_nil_or_concat with rfl | ⟨front, last, rfl⟩
  · simp [chunks] at h
  · have hlen : cap < (front.filter (0 < ·)).length + ([last].filter (0 < ·)).length := by
      simpa [chunks] using h
    have hlast : ([last].filter (0 < ·)).length ≤ last := by
      rcases Nat.eq_zero_or_pos last with rfl | hl <;>
        simp [*, Nat.one_le_iff_ne_zero, Nat.ne_of_gt]
    have hone : ([last].filter (0 < ·)).length ≤ 1 := List.length_filter_le ..
    have hfull : ¬ ((front.filter (0 < ·)).take cap).length < cap := by
      rw [List.length_take]
      omega
    have hdrop : (front.filter (0 < ·)).length - cap ≤ ((front.filter (0 < ·)).drop cap).sum := by
      rw [← List.length_drop]
      exact List.length_le_sum_of_one_le _ fun x hx =>
        of_decide_eq_true (List.mem_filter.mp (List.mem_of_mem_drop hx)).2
    have hsplit := List.sum_take_add_sum_drop (front.filter (0 < ·)) cap
    rw [sum_filter_pos] at hsplit
    simp only [getBytes, List.concat_eq_append, List.dropLast_concat, if_neg hfull, List.sum_append,
      List.sum_singleton]
    omega

theorem offered_eq_iff {f : Fifo} : f.offered = f.nodes.sum ↔
    chunks f.nodes ≤ barriercap ∧ f.nodes.sum ≤ maxInt32 := by
  constructor
  · intro he
    have hmax : f.offered ≤ maxInt32 - 0 := sum_iovecs_le (Nat.zero_le maxInt32)
    have hle : f.offered ≤ (getBytes barriercap f.nodes).sum := sum_iovecs_le_sum 0 _
    refine ⟨?_, he ▸ hmax⟩
    by_contra hcap
    have := sum_getBytes_lt (Nat.lt_of_not_le hcap)
    omega
  · intro ⟨hcap, hsum⟩
    rw [Fifo.offered, sum_iovecs (by rw [sum_getBytes hcap]; omega), sum_getBytes hcap]

/-- The `i`-th gathered write takes less than it is offered. -/
def short (k : Kernel) (i offered : Nat) : Bool :=
  match k.writes i with
  | .ok n => n < offered
  | .fail _ => true

/-- The buffer is empty and the writer has been triggered. -/
def Fifo.flushed (f : Fifo) : Bool := isEmpty f.nodes && f.writeTrigger.isSome

theorem flushed_detachWrite {f : Fifo} (h : isEmpty f.nodes) : f.detachWrite.flushed := by
  have hnodes : (f.control .detach).1.nodes = f.nodes := by
    simp only [Fifo.control]
    split_ifs <;> rfl
  simp only [Fifo.detachWrite, Fifo.triggerWrite, Fifo.flushed]
  split <;> simp_all

theorem handle_writable (k : Kernel) (fuel : Nat) {ev : Event} (hw : ev.write) (hh : ev.hup = false)
    (he : ev.error = false) (s : Fd Fifo) :
    handle k Fifo.operator fuel ev s = some (handleWrite k Fifo.operator s) := by
  have hread : (if ev.read then handleRead k Fifo.operator s else (s, 0, false)) =
    (s, 0, false) := by
    split <;> rfl
  simp [handle, hread, handleLeft, hh, he, hw]

theorem handleWrite_empty (k : Kernel) {s : Fd Fifo} (h : isEmpty s.state.nodes) :
    handleWrite k Fifo.operator s = ({ s with state := s.state.detachWrite }, none) := by
  simp [handleWrite, Fifo.operator, Fifo.outputs, h]

theorem handleWrite_send (k : Kernel) {s : Fd Fifo} (h : isEmpty s.state.nodes = false)
    (hoff : 0 < s.state.offered) :
    (∃ n, k.writes s.writes = .ok n ∧ (handleWrite k Fifo.operator s).1 =
        { s with
          state := s.state.outputAck (min n s.state.offered : Nat), writes := s.writes + 1 }) ∨
      ∃ e, k.writes s.writes = .fail e ∧
        (handleWrite k Fifo.operator s).1.writes = s.writes + 1 := by
  have hbs : getBytes barriercap s.state.nodes ≠ [] := by
    intro h0
    simp [Fifo.offered, h0, iovecs] at hoff
  have hiov : iovecs 0 (getBytes barriercap s.state.nodes) ≠ [] := by
    intro h0
    simp [Fifo.offered, h0] at hoff
  have houtputs : Fifo.outputs s.state = (getBytes barriercap s.state.nodes, s.state) := by
    simp [Fifo.outputs, h]
  simp only [handleWrite, Fifo.operator, houtputs, hbs, if_false, iosend, writev, hiov]
  rcases k.writes s.writes with n | (_ | _ | c)
  · exact .inl ⟨n, rfl, rfl⟩
  all_goals exact .inr ⟨_, rfl, rfl⟩

theorem flushed_outputAck {f : Fifo} (hpos : 0 < f.offered) :
    (f.outputAck f.offered).flushed ↔ f.offered = f.nodes.sum := by
  have hsum := sum_skip f.offered f.nodes
  simp only [Fifo.outputAck, Int.natCast_pos, hpos, if_true, Int.toNat_natCast]
  by_cases he : f.offered = f.nodes.sum
  · have hskip : isEmpty (skip f.offered f.nodes) := by
      rw [isEmpty, hsum, he, Nat.sub_self]
      rfl
    rw [if_pos hskip]
    exact iff_of_true (flushed_detachWrite hskip) he
  · have hle : f.offered ≤ f.nodes.sum := by
      refine (sum_iovecs_le_sum 0 _).trans ?_
      rcases Nat.lt_or_ge barriercap (chunks f.nodes) with h | h
      · exact (sum_getBytes_lt h).le
      · exact (sum_getBytes h).le
    have hskip : isEmpty (skip f.offered f.nodes) = false := by
      simp only [isEmpty, hsum, beq_eq_false_iff_ne]
      omega
    simp [Fifo.flushed, hskip, he]

/-- A writable event ends with an empty buffer and a triggered writer, or with a write that took
less than it was offered, if and only if the kernel takes less or all that is buffered fits into one
vector: at most `barriercap` chunks and 2 GB. -/
theorem writable_exhausted (k : Kernel) (fuel : Nat) (ev : Event) (hw : ev.write)
    (hh : ev.hup = false) (he : ev.error = false) (s : Fd Fifo) :
    ∃ s' c, handle k Fifo.operator fuel ev s = some (s', c) ∧
      ((s'.state.flushed ∨ s'.writes = s.writes + 1 ∧ short k s.writes s.state.offered) ↔
        short k s.writes s.state.offered ∨
          chunks s.state.nodes ≤ barriercap ∧ s.state.nodes.sum ≤ maxInt32) := by
  refine ⟨(handleWrite k Fifo.operator s).1, (handleWrite k Fifo.operator s).2,
    handle_writable k fuel hw hh he s, ?_⟩
  cases hempty : isEmpty s.state.nodes with
  | true =>
    rw [handleWrite_empty k hempty]
    have h0 : s.state.nodes.sum = 0 := by simpa [isEmpty] using hempty
    have hfits : chunks s.state.nodes ≤ barriercap ∧ s.state.nodes.sum ≤ maxInt32 := by
      refine ⟨?_, h0 ▸ Nat.zero_le _⟩
      by_contra hcap
      have := sum_getBytes_lt (Nat.lt_of_not_le hcap)
      omega
    exact iff_of_true (.inl (flushed_detachWrite hempty)) (.inr hfits)
  | false =>
    have hsum : 0 < s.state.nodes.sum := by
      simp only [isEmpty, beq_eq_false_iff_ne] at hempty
      omega
    have hpos : 0 < s.state.offered :=
      sum_iovecs_pos (by decide) (sum_getBytes_pos (by decide) hsum)
    rcases handleWrite_send k hempty hpos with ⟨n, hk, hres⟩ | ⟨e, hk, hres⟩
    · rcases Nat.lt_or_ge n s.state.offered with hlt | hge
      · have hshort : short k s.writes s.state.offered := by simp [short, hk, hlt]
        exact iff_of_true (.inr ⟨by rw [hres], hshort⟩) (.inl hshort)
      · have hshort : ¬ short k s.writes s.state.offered := by simp [short, hk, hge]
        rw [hres, Nat.min_eq_right hge]
        simp only [hshort, Bool.false_eq_true, and_false, or_false, false_or, ← offered_eq_iff]
        exact flushed_outputAck hpos
    · have hshort : short k s.writes s.state.offered := by simp [short, hk]
      exact iff_of_true (.inr ⟨hres, hshort⟩) (.inl hshort)

def epollout : Event := ⟨false, true, false, false⟩

def greedy : Kernel where
  reads _ := .ok 0
  writes _ := .ok maxInt32
  noError _ := true

def pending (nodes : List Nat) : Fd Fifo := ⟨⟨nodes, 0, true, none⟩, 0, 0, 0⟩

theorem writable_exhausted_short :
    ∃ s' c, handle ⟨fun _ => .ok 0, fun _ => .ok 1, fun _ => true⟩ Fifo.operator 0 epollout
        (pending (List.replicate 33 1)) = some (s', c) ∧
      (s'.state.flushed ∨ s'.writes = 1 ∧
        short ⟨fun _ => .ok 0, fun _ => .ok 1, fun _ => true⟩ 0
          (pending (List.replicate 33 1)).state.offered) := by
  obtain ⟨s', c, hs, hiff⟩ := writable_exhausted ⟨fun _ => .ok 0, fun _ => .ok 1, fun _ => true⟩ 0
    epollout rfl rfl rfl (pending (List.replicate 33 1))
  exact ⟨s', c, hs, hiff.mpr (.inl rfl)⟩

/-- With 33 nodes the kernel takes all it is offered, and a byte is left. -/
theorem writable_stranded :
    ∃ s' c, handle greedy Fifo.operator 0 epollout (pending (List.replicate 33 1)) = some (s', c) ∧
      s'.writes = 1 ∧ s'.state.nodes.sum = 1 ∧ s'.state.writeTrigger = none ∧
      short greedy 0 (pending (List.replicate 33 1)).state.offered = false :=
  ⟨_, _, rfl, rfl, rfl, rfl, rfl⟩

end Netpoll.WriteFifo
