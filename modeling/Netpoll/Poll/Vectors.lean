import Mathlib.Algebra.Ring.Int.Defs
import Mathlib.Data.List.Forall2
import Netpoll.Poll.Handler

namespace Netpoll.Poll.Vectors

open Netpoll.Poll.Handler (maxInt32)

structure Slice where
  addr : Nat
  len : Nat
  deriving DecidableEq, Repr

structure Iovec where
  base : Option Nat
  len : Nat
  deriving DecidableEq, Repr

def Slice.bytes (s : Slice) : List Nat := List.range' s.addr s.len

def Iovec.bytes (v : Iovec) : List Nat := v.base.elim [] (List.range' · v.len)

section

variable (w : Nat)

def wrap (x : Int) : Int := x.bmod (2 ^ w)

def Iovec.setLen (v : Iovec) (l : Int) : Iovec := { v with len := (l % 2 ^ w).toNat }

/-- The loop from one chunk on, with `totalLen` and `iovLen`; `none` when the index
is out of range. -/
def iovecsLoop : List Slice → List Iovec → Int → Nat → Option (List Iovec × Nat)
  | [], ivs, _, iovLen => some (ivs, iovLen)
  | chunk :: bs, ivs, totalLen, iovLen =>
    if chunk.len = 0 then iovecsLoop bs ivs totalLen iovLen
    else
      match ivs[iovLen]? with
      | none => none
      | some v =>
        let v := { v with base := some chunk.addr }
        let totalLen := wrap w (totalLen + chunk.len)
        if totalLen < maxInt32 then
          iovecsLoop bs (ivs.set iovLen (v.setLen w chunk.len)) totalLen (iovLen + 1)
        else
          let newLen := wrap w (maxInt32 - totalLen + chunk.len)
          some (ivs.set iovLen (v.setLen w newLen), iovLen + 1)

def iovecs (bs : List Slice) (ivs : List Iovec) : Option (List Iovec × Nat) :=
  iovecsLoop w bs ivs 0 0

end

def gather : Nat → List Slice → List Iovec
  | _, [] => []
  | total, s :: bs =>
    if s.len = 0 then gather total bs
    else if total + s.len < maxInt32 then ⟨some s.addr, s.len⟩ :: gather (total + s.len) bs
    else [⟨some s.addr, maxInt32 - total⟩]

def Iovec.Starts (v : Iovec) (s : Slice) : Prop := v.base = some s.addr ∧ 0 < v.len ∧ v.len ≤ s.len

section

variable {w total : Nat} {bs : List Slice} {ivs : List Iovec}

/-- The lengths of the entries are those that the poller offers. -/
theorem gather_len (total : Nat) (bs : List Slice) :
    (gather total bs).map Iovec.len = Handler.iovecs total (bs.map Slice.len) := by
  induction bs generalizing total with
  | nil => rfl
  | cons s bs ih =>
    simp only [gather, Handler.iovecs, List.map_cons]
    split_ifs
    · exact ih total
    · rw [List.map_cons, ih]
    · rfl

theorem length_gather_le (total : Nat) (bs : List Slice) :
    (gather total bs).length ≤ bs.length := by
  induction bs generalizing total with
  | nil => exact Nat.le_refl 0
  | cons s bs ih =>
    simp only [gather]
    split_ifs
    · exact Nat.le_succ_of_le (ih total)
    · exact Nat.succ_le_succ (ih _)
    · simp

theorem gather_starts (ht : total < maxInt32) :
    List.Forall₂ Iovec.Starts (gather total bs)
      ((bs.filter (0 < ·.len)).take (gather total bs).length) := by
  induction bs generalizing total with
  | nil => exact .nil
  | cons s bs ih =>
    simp only [gather]
    split_ifs with h0 hlt
    · simpa [h0] using ih ht
    · have hpos : 0 < s.len := Nat.pos_of_ne_zero h0
      rw [List.filter_cons_of_pos (by simpa using hpos), List.length_cons, List.take_succ_cons]
      exact .cons ⟨rfl, hpos, Nat.le_refl _⟩ (ih hlt)
    · have hpos : 0 < s.len := Nat.pos_of_ne_zero h0
      rw [List.filter_cons_of_pos (by simpa using hpos)]
      exact .cons ⟨rfl, by dsimp only; omega, by dsimp only; omega⟩ .nil

theorem gather_bytes (ht : total < maxInt32) :
    (gather total bs).flatMap Iovec.bytes = (bs.flatMap Slice.bytes).take (maxInt32 - total) := by
  induction bs generalizing total with
  | nil => simp [gather]
  | cons s bs ih =>
    have hlen : s.bytes.length = s.len := List.length_range'
    simp only [gather, List.flatMap_cons, List.take_append, hlen]
    split_ifs with h0 hlt
    · rw [ih ht, h0, List.length_eq_zero_iff.mp (hlen.trans h0), List.take_nil, List.nil_append,
        Nat.sub_zero]
    · have hall : s.bytes.take (maxInt32 - total) = s.bytes := List.take_of_length_le (by omega)
      rw [List.flatMap_cons, ih hlt, hall, Nat.sub_sub]
      rfl
    · have hcut : s.bytes.take (maxInt32 - total) = List.range' s.addr (maxInt32 - total) := by
        rw [Slice.bytes, List.take_range'_of_length_ge (by omega)]
      rw [hcut, show maxInt32 - total - s.len = 0 by omega, List.take_zero]
      simp [Iovec.bytes]

theorem wrap_natCast {n : Nat} (hw : 0 < w) (hn : n < 2 ^ (w - 1)) : wrap w n = n := by
  have hpow : 2 ^ w = 2 * 2 ^ (w - 1) := by
    rw [← Nat.pow_succ', Nat.succ_eq_add_one, Nat.sub_add_cancel hw]
  exact Int.bmod_eq_of_le (by omega) (by omega)

theorem setLen_natCast {n : Nat} (v : Iovec) (hn : n < 2 ^ (w - 1)) :
    v.setLen w n = { v with len := n } := by
  have hlt : n < 2 ^ w := Nat.lt_of_lt_of_le hn (Nat.pow_le_pow_right Nat.two_pos (Nat.sub_le w 1))
  have hmod : ((n : Int) % 2 ^ w).toNat = n := by
    rw [Int.emod_eq_of_lt (Int.natCast_nonneg n) (by exact_mod_cast hlt), Int.toNat_natCast]
  rw [Iovec.setLen, hmod]

theorem take_set_append {n : Nat} (v : Iovec) (l : List Iovec) (hn : n < ivs.length) :
    (ivs.set n v).take (n + 1) ++ l ++ (ivs.set n v).drop (n + 1 + l.length) =
      ivs.take n ++ v :: l ++ ivs.drop (n + (v :: l).length) := by
  have htake : (ivs.set n v).take (n + 1) = ivs.take n ++ [v] := by
    rw [List.take_succ_eq_append_getElem (by simpa using hn), List.take_set_of_le (Nat.le_refl n),
      List.getElem_set_self]
  have hdrop : (ivs.set n v).drop (n + 1 + l.length) = ivs.drop (n + (v :: l).length) := by
    rw [List.drop_set_of_lt (by omega), List.length_cons]
    congr 1
    omega
  rw [htake, hdrop]
  simp only [List.append_assoc, List.cons_append, List.nil_append]

theorem iovecsLoop_eq {n : Nat} (hw : 32 ≤ w) (ht : total < maxInt32)
    (hsum : total + (bs.map Slice.len).sum < 2 ^ (w - 1)) (hn : n + bs.length ≤ ivs.length) :
    iovecsLoop w bs ivs total n = some
      (ivs.take n ++ gather total bs ++ ivs.drop (n + (gather total bs).length),
        n + (gather total bs).length) := by
  induction bs generalizing ivs total n with
  | nil => simp [iovecsLoop, gather]
  | cons s bs ih =>
    simp only [List.map_cons, List.sum_cons, List.length_cons] at hsum hn
    simp only [iovecsLoop, gather]
    by_cases h0 : s.len = 0
    · simp only [h0, if_true]
      exact ih ht (by omega) (by omega)
    have hget : ivs[n]? = some ivs[n] := List.getElem?_eq_getElem (by omega)
    have hwrap : wrap w (total + s.len) = (total + s.len : Nat) := by
      rw [← Int.natCast_add]
      exact wrap_natCast (by omega) (by omega)
    simp only [h0, if_false, hget, hwrap, Int.ofNat_lt]
    split_ifs with hlt
    · rw [setLen_natCast _ (by omega), ih hlt (by omega) (by simpa using by omega),
        take_set_append _ _ (by omega), List.length_cons]
      congr 2
      omega
    · -- the sum reaches the limit in this chunk
      have hnew : (maxInt32 - (total + s.len : Nat) + s.len : Int) = (maxInt32 - total : Nat) := by
        omega
      have hmax : maxInt32 - total < 2 ^ (w - 1) := by
        have h31 : 2 ^ 31 ≤ 2 ^ (w - 1) := Nat.pow_le_pow_right Nat.two_pos (by omega)
        have hm : maxInt32 < 2 ^ 31 := by decide
        omega
      rw [hnew, wrap_natCast (by omega) hmax,
        setLen_natCast _ hmax, ← take_set_append _ _ (by omega), List.append_nil, List.length_nil,
        Nat.add_zero, List.take_append_drop]
      rfl

/-- `iovecs` writes one entry after another for the chunks that are not empty, from
the first byte of each, up to 2 GB in all, and leaves the other entries alone. -/
theorem iovecs_gathers (hw : 32 ≤ w) (bs : List Slice) (ivs : List Iovec)
    (hsum : (bs.map Slice.len).sum < 2 ^ (w - 1)) (hlen : bs.length ≤ ivs.length) :
    ∃ ivs' iovLen, iovecs w bs ivs = some (ivs', iovLen) ∧
      (ivs'.take iovLen).flatMap Iovec.bytes =
        (bs.flatMap Slice.bytes).take (min (bs.map Slice.len).sum maxInt32) ∧
      List.Forall₂ Iovec.Starts (ivs'.take iovLen) ((bs.filter (0 < ·.len)).take iovLen) ∧
      iovLen ≤ (bs.filter (0 < ·.len)).length ∧
      ivs'.drop iovLen = ivs.drop iovLen ∧ ivs'.length = ivs.length ∧ iovLen ≤ ivs.length := by
  have hmax : 0 < maxInt32 := by decide
  have hle := length_gather_le 0 bs
  have hrun : iovecs w bs ivs = some
      (gather 0 bs ++ ivs.drop (gather 0 bs).length, (gather 0 bs).length) := by
    have h : iovecsLoop w bs ivs (0 : Nat) 0 = _ := iovecsLoop_eq hw hmax (by omega) (by omega)
    simp only [Nat.zero_add, List.take_zero, List.nil_append] at h
    exact h
  have hstarts : List.Forall₂ Iovec.Starts (gather 0 bs) _ := gather_starts hmax
  refine ⟨_, _, hrun, ?_, ?_, ?_, ?_, ?_, by omega⟩
  · have hbytes : (bs.flatMap Slice.bytes).length = (bs.map Slice.len).sum := by
      simp [List.length_flatMap, Slice.bytes]
    rw [List.take_left, gather_bytes hmax, Nat.sub_zero, List.take_eq_take_min, hbytes,
      Nat.min_comm]
  · rw [List.take_left]
    exact hstarts
  · have h := hstarts.length_eq
    rw [List.length_take] at h
    omega
  · rw [List.drop_left]
  · rw [List.length_append, List.length_drop]
    omega

end

theorem iovecs_gathers_three :
    ∃ ivs' iovLen, iovecs 64 [⟨100, 0⟩, ⟨200, 3⟩, ⟨1000, 2 ^ 31⟩] (List.replicate 3 ⟨none, 0⟩) =
        some (ivs', iovLen) ∧
      ivs' = [⟨some 200, 3⟩, ⟨some 1000, 2 ^ 31 - 4⟩, ⟨none, 0⟩] ∧ iovLen = 2 ∧
      List.Forall₂ Iovec.Starts (ivs'.take iovLen) [⟨200, 3⟩, ⟨1000, 2 ^ 31⟩] := by
  obtain ⟨ivs', iovLen, hrun, -, hstarts, -⟩ := iovecs_gathers (w := 64) (by decide)
    [⟨100, 0⟩, ⟨200, 3⟩, ⟨1000, 2 ^ 31⟩] (List.replicate 3 ⟨none, 0⟩) (by decide) (by decide)
  have hval : iovecs 64 [⟨100, 0⟩, ⟨200, 3⟩, ⟨1000, 2 ^ 31⟩] (List.replicate 3 ⟨none, 0⟩) =
      some ([⟨some 200, 3⟩, ⟨some 1000, 2 ^ 31 - 4⟩, ⟨none, 0⟩], 2) := by decide
  obtain ⟨h1, h2⟩ := Prod.mk.inj (Option.some.inj (hrun.symm.trans hval))
  refine ⟨ivs', iovLen, hrun, h1, h2, ?_⟩
  rw [h2] at hstarts ⊢
  exact hstarts

end Netpoll.Poll.Vectors
