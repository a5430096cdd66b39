import Netpoll.Nocopy.Acts

namespace Netpoll.Nocopy

open Netpoll.Lib Netpoll.Lib.Memory

abbrev Layout := List (LinkBuffer × Parts)

def Layout.nodes (l : Layout) : List Nat := l.flatMap fun x => x.2.all

def Layout.kept (l : Layout) : List Slice := l.flatMap fun x => x.1.kept

variable {w w' : World} {l l' rest : Layout} {P P' : Nat → Prop} {h h' : Heap} {b b' : LinkBuffer}
  {p p' : Parts} {i j k n : Nat} {cfg : Config} {a : Act} {o : Out} {op : Op}

/-- The buffers of `w` have the nodes that `l` says. -/
structure Inv (w : World) (l : Layout) (P : Nat → Prop) : Prop where
  bufs : w.bufs = l.map Prod.fst
  buffer : ∀ x ∈ l, Buffer w.heap x.1 x.2
  safe : Safe w.heap l.nodes l.kept P

namespace Layout

@[simp] theorem nodes_cons (x : LinkBuffer × Parts) : nodes (x :: l) = x.2.all ++ nodes l := rfl

@[simp] theorem kept_cons (x : LinkBuffer × Parts) : kept (x :: l) = x.1.kept ++ kept l := rfl

@[simp] theorem nodes_append : nodes (l ++ l') = nodes l ++ nodes l' := List.flatMap_append

@[simp] theorem kept_append : kept (l ++ l') = kept l ++ kept l' := List.flatMap_append

theorem nodes_perm (hp : l.Perm l') : (nodes l).Perm (nodes l') := hp.flatMap_right _

theorem kept_perm (hp : l.Perm l') : (kept l).Perm (kept l') := hp.flatMap_right _

theorem viewed (hb : ∀ x ∈ l, Buffer h x.1 x.2) : Viewed h (nodes l) := by
  induction l with
  | nil => simp [nodes, Viewed]
  | cons x l ih =>
    exact (hb x (by simp)).owned_all.viewed.append (ih fun y hy => hb y (by simp [hy]))

theorem mem_nodes (hx : (b, p) ∈ l) (hk : k ∈ p.all) : k ∈ nodes l := by
  rw [nodes, List.mem_flatMap]
  exact ⟨_, hx, hk⟩

end Layout

theorem Safe.kept_perm {U : List Nat} {K K' : List Slice} (hs : Safe h U K P) (hK : K.Perm K') :
    Safe h U K' P := hs.caches hK.symm.subperm

structure Focus (w : World) (l rest : Layout) (i : Nat) (b : LinkBuffer) (p : Parts)
    (P : Nat → Prop) : Prop where
  get : l[i]? = some (b, p)
  perm : l.Perm ((b, p) :: rest)
  set : ∀ y, (l.set i y).Perm (y :: rest)
  others : ∀ {j x}, j ≠ i → l[j]? = some x → x ∈ rest
  buffer : Buffer w.heap b p
  safe : Safe w.heap (p.all ++ rest.nodes) (b.kept ++ rest.kept) P
  viewed : Viewed w.heap rest.nodes

theorem perm_set {α : Type*} {l : List α} {x : α} (hi : l[i]? = some x) (y : α) :
    (l.set i y).Perm (y :: l.eraseIdx i) := by
  obtain ⟨hlt, -⟩ := List.getElem?_eq_some_iff.mp hi
  have := List.getElem_cons_eraseIdx_perm (l := l.set i y) (n := i) (by simpa using hlt)
  rw [List.getElem_set_self, List.eraseIdx_set_eq] at this
  exact this.symm

theorem Inv.focus (hI : Inv w l P) (hi : w.bufs[i]? = some b) :
    ∃ p rest, Focus w l rest i b p P := by
  rw [hI.bufs, List.getElem?_map, Option.map_eq_some_iff] at hi
  obtain ⟨⟨b, p⟩, hget, rfl⟩ := hi
  obtain ⟨hlt, hge⟩ := List.getElem?_eq_some_iff.mp hget
  have hperm : l.Perm ((b, p) :: l.eraseIdx i) := by
    rw [← hge]
    exact (List.getElem_cons_eraseIdx_perm hlt).symm
  refine ⟨p, l.eraseIdx i, hget, hperm, perm_set hget, fun hj hx => ?_,
    hI.buffer _ (List.mem_of_getElem? hget), ?_, ?_⟩
  · exact List.mem_eraseIdx_iff_getElem?.mpr ⟨_, hj, hx⟩
  · exact (hI.safe.perm (Layout.nodes_perm hperm)).kept_perm (Layout.kept_perm hperm)
  · exact Layout.viewed fun x hx => hI.buffer x (hperm.mem_iff.mpr (by simp [hx]))

theorem Focus.update (hF : Focus w l rest i b p P) (hI : Inv w l P) (hb : Buffer h' b' p')
    (hs : Safe h' (p'.all ++ rest.nodes) (b'.kept ++ rest.kept) P')
    (hn : ∀ k ∈ rest.nodes, (h'.nodes k).bare = (w.heap.nodes k).bare)
    (hl : ∀ x, w.heap.owner x = .lent → h'.owner x = .lent) :
    Inv ⟨h', w.bufs.set i b'⟩ (l.set i (b', p')) P' where
  bufs := by
    rw [hI.bufs, List.map_set]
  buffer x hx := by
    rcases List.mem_cons.mp ((hF.set _).mem_iff.mp hx) with rfl | hx
    · exact hb
    · refine (hI.buffer x (hF.perm.mem_iff.mpr (by simp [hx]))).of_bare hl fun k hk => ?_
      exact hn k (Layout.mem_nodes (b := x.1) hx hk)
  safe := (hs.perm (Layout.nodes_perm (hF.set (b', p')).symm)).kept_perm
    (Layout.kept_perm (hF.set (b', p')).symm)

namespace Op

def acks : Op → Bool
  | .act _ a => a.acks
  | _ => false

def splits : Op → Bool
  | .act _ a => a.splits
  | _ => false

def slices : Op → Bool
  | .slice _ _ => true
  | _ => false

def appends : Op → Bool
  | .append _ _ => true
  | _ => false

end Op

def Layout.Writers (l : Layout) : Prop := ∀ x ∈ l, x.2.back ≠ [] ∨ x.2.all = []

def Layout.Flushed (h : Heap) (l : Layout) : Prop := ∀ x ∈ l, h.content x.2.back.tail = []

def Layout.Idle (h : Heap) (l : Layout) : Prop := ∀ x ∈ l, Nocopy.Idle h x.2

structure Moved (h h' : Heap) (l l' : Layout) (P : Nat → Prop) (op : Op) : Prop where
  later : Later h h' fun x => h.owner x = .lent ∨ P x
  caches : ∀ q ∈ l'.kept, (∃ q' ∈ l.kept, q'.blk = q.blk) ∨ h.owner q.blk = .mcache
  writes : Writes (Written h l.nodes l.kept) h.mem h'.mem
  grows : op.acks = false → Grows h h' l.nodes l'.nodes
  writers : op.slices = false → l.Writers → l'.Writers
  flushed : op.appends = false → l.Flushed h → l'.Flushed h'
  unsplit : op.splits = false → Unsplit h l.nodes → Unsplit h' l'.nodes
  idle : op.appends = false → op.splits = false → l.Idle h → l'.Idle h'

theorem Idle.of_bare (hi : Idle h p) (hn : ∀ k ∈ p.all, (h'.nodes k).bare = (h.nodes k).bare) :
    Idle h' p :=
  fun k hk => by
    rw [(Node.SameBuf.of_bare (hn k (Parts.mem_all_of_tail hk))).1]
    exact hi k hk

theorem Written.mono {U V : List Nat} {K K' : List Slice} {x : Addr} (hw : Written h V K x)
    (hV : ∀ k ∈ V, k ∈ U) (hK : ∀ q ∈ K, q ∈ K') : Written h U K' x :=
  hw.imp (·.mono hV hK) (And.imp_left fun ⟨k, hk, hx⟩ => ⟨k, hV k hk, hx⟩)

theorem Grows.mono {V V' W W' : List Nat} (hg : Grows h h' V V') (hV : ∀ k ∈ V, k ∈ W)
    (hW : ∀ k ∈ W', k ∈ V' ∨ k ∈ W ∧ (h.nodes k).Like (h'.nodes k)) : Grows h h' W W' := by
  intro k hk ho hcap
  rcases hW k hk with hk | ⟨hk, hl⟩
  · exact (hg k hk ho hcap).imp_left fun ⟨i, hi, hs⟩ => ⟨i, hV i hi, hs⟩
  · exact .inl ⟨k, hk, hl.stays⟩

theorem Acted.moved (hF : Focus w l rest i b p P)
    (hA : Acted w.heap h' b b' p p' a rest.nodes rest.kept P P')
    (hop : op.acks = a.acks ∧ op.splits = a.splits) :
    Moved w.heap h' l (l.set i (b', p')) P op := by
  have hn : ∀ {k}, k ∈ l.nodes ↔ k ∈ p.all ++ rest.nodes := (Layout.nodes_perm hF.perm).mem_iff
  have hk : ∀ {q}, q ∈ l.kept ↔ q ∈ b.kept ++ rest.kept := (Layout.kept_perm hF.perm).mem_iff
  have hn' : ∀ {k}, k ∈ Layout.nodes (l.set i (b', p')) ↔ k ∈ p'.all ++ rest.nodes :=
    (Layout.nodes_perm (hF.set (b', p'))).mem_iff
  have hk' : ∀ {q}, q ∈ Layout.kept (l.set i (b', p')) ↔ q ∈ b'.kept ++ rest.kept :=
    (Layout.kept_perm (hF.set (b', p'))).mem_iff
  have hlike : ∀ k ∈ rest.nodes, (w.heap.nodes k).Like (h'.nodes k) :=
    fun k hk => .of_bare (hA.node k hk)
  have hmem : ∀ x ∈ l.set i (b', p'), x = (b', p') ∨ x ∈ rest := fun x hx =>
    List.mem_cons.mp ((hF.set _).mem_iff.mp hx)
  have hrest : ∀ x ∈ rest, x ∈ l := fun x hx => hF.perm.mem_iff.mpr (by simp [hx])
  have hp : (b, p) ∈ l := hF.perm.mem_iff.mpr (by simp)
  refine ⟨hA.later, fun q hq => ?_, ?_, fun hack => ?_, fun _ hw x hx => ?_, fun _ hf x hx => ?_,
    fun hsp hu k hkn hv => ?_, fun _ hsp hi x hx => ?_⟩
  · rcases List.mem_append.mp (hk'.mp hq) with hq | hq
    · exact (hA.caches q hq).imp_left
        fun ⟨q', hq', he⟩ => ⟨q', hk.mpr (List.mem_append_left _ hq'), he⟩
    · exact .inl ⟨q, hk.mpr (List.mem_append_right _ hq), rfl⟩
  · exact hA.writes.mono fun x hx => hx.mono (fun k hk => hn.mpr (List.mem_append_left _ hk))
      fun q hq => hk.mpr (List.mem_append_left _ hq)
  · refine (hA.grows (hop.1 ▸ hack)).mono (fun k hk => hn.mpr (List.mem_append_left _ hk))
      fun k hk => ?_
    rcases List.mem_append.mp (hn'.mp hk) with hk | hk
    · exact .inl hk
    · exact .inr ⟨hn.mpr (List.mem_append_right _ hk), hlike k hk⟩
  · rcases hmem x hx with rfl | hx
    · exact hA.writer (hw _ hp)
    · exact hw x (hrest x hx)
  · rcases hmem x hx with rfl | hx
    · exact hA.flushed (hf _ hp)
    · have := hf x (hrest x hx)
      rwa [Heap.content_bare fun k hk => hA.node k
        (Layout.mem_nodes (b := x.1) hx (Parts.mem_all_of_back (List.mem_of_mem_tail hk)))]
  · rcases List.mem_append.mp (hn'.mp hkn) with hk | hk
    · exact hA.unsplit (hop.2 ▸ hsp) (fun k hk => hu k (hn.mpr (List.mem_append_left _ hk))) k hk hv
    · rw [(hlike k hk).blk]
      exact hA.later.lent _ (hu k (hn.mpr (List.mem_append_right _ hk)) ((hlike k hk).view.mp hv))
  · rcases hmem x hx with rfl | hx
    · exact hA.idle (hop.2 ▸ hsp) (hi _ hp)
    · exact (hi x (hrest x hx)).of_bare fun k hk => hA.node k (Layout.mem_nodes (b := x.1) hx hk)

theorem newLinkBuffer_spec
    {U : List Nat} {K : List Slice} (hs : Safe h U K P) (cfg : Config) (size : Int) :
    ∃ i h', newLinkBuffer h cfg size =
        ({ head := some i, read := some i, flush := some i, write := some i }, h') ∧
      Buffer h' { head := some i, read := some i, flush := some i, write := some i }
        ⟨[], [], [i], []⟩ ∧
      Safe h' (i :: U) K P ∧ Keeps h h' U K P ∧ Still h h' ∧ h'.mem = h.mem ∧ New h h' i := by
  obtain ⟨i, h', hnew, hi, hs', hm⟩ := hs.newNode cfg size
  have hn := hm.new
  refine ⟨i, h', by simp [newLinkBuffer, hnew],
    ⟨⟨⟨rfl, hn.next⟩, rfl, rfl, rfl, ?_, by simp, by simp, by simp⟩, ?_, ?_, hn.owned,
      hn.owned, by simp, fun _ k hk => ?_⟩, hs', hm.keeps hi, hm.still, hm.mem, hn⟩
  · intro k hk
    obtain rfl : k = i := by simpa using hk
    exact hn.fit
  · simp [Parts.live, hn.ready]
  · simp [Parts.live, hn.pending]
  · obtain rfl : k = i := by simpa [Parts.all] using hk
    exact hn.origin

theorem Buffer.keeps {U : List Nat} {K : List Slice} (hb : Buffer h b p) (hk : Keeps h h' U K P)
    (hU : ∀ k ∈ p.all, k ∈ U) : Buffer h' b p :=
  hb.of_bare hk.later.lent fun k hk' => hk.node k (hU k hk')

theorem Moved.add (op : Op) (hst : Still h h')
    (hn : ∀ k ∈ l.nodes, (h'.nodes k).bare = (h.nodes k).bare)
    (hw : Writes (Written h l.nodes l.kept) h.mem h'.mem)
    (hl : ∀ x ∈ l', x.1.kept = [] ∧ (x.2.back ≠ [] ∨ op.slices) ∧ x.2.back.tail = [] ∧
      ∀ k ∈ x.2.all, New h h' k) : Moved h h' l (l ++ l') P op := by
  have hlike : ∀ k ∈ l.nodes, (h.nodes k).Like (h'.nodes k) := fun k hk => .of_bare (hn k hk)
  have hnew : ∀ k ∈ Layout.nodes l', New h h' k := fun k hk => by
    obtain ⟨x, hx, hkx⟩ := List.mem_flatMap.mp hk
    exact (hl x hx).2.2.2 k hkx
  refine ⟨hst.later, fun q hq => ?_, hw, fun _ k hk _ hcap => ?_, fun hsl hwr x hx => ?_,
    fun _ hf x hx => ?_, fun _ hu k hk hv => ?_, fun _ _ hi x hx => ?_⟩
  · rw [Layout.kept_append, List.mem_append] at hq
    rcases hq with hq | hq
    · exact .inl ⟨q, hq, rfl⟩
    · obtain ⟨x, hx, hqx⟩ := List.mem_flatMap.mp hq
      simp [(hl x hx).1] at hqx
  · rw [Layout.nodes_append, List.mem_append] at hk
    rcases hk with hk | hk
    · exact .inl ⟨k, hk, (hlike k hk).stays⟩
    · rcases (hnew k hk).block with h0 | ⟨-, hm⟩
      · omega
      · exact .inr (.inl hm)
  · rcases List.mem_append.mp hx with hx | hx
    · exact hwr x hx
    · exact .inl ((hl x hx).2.1.resolve_right (by simp [hsl]))
  · rcases List.mem_append.mp hx with hx | hx
    · rw [Heap.content_bare fun k hk => hn k
        (Layout.mem_nodes (b := x.1) hx (Parts.mem_all_of_back (List.mem_of_mem_tail hk)))]
      exact hf x hx
    · rw [(hl x hx).2.2.1]
      rfl
  · rw [Layout.nodes_append, List.mem_append] at hk
    rcases hk with hk | hk
    · rw [(hlike k hk).blk]
      exact hst.lent _ (hu k hk ((hlike k hk).view.mp hv))
    · rcases (hnew k hk).block with h0 | ⟨hro, -⟩
      · exact absurd hv.2.2 (by simp [h0])
      · exact absurd hv.2.1 (by simp [hro])
  · rcases List.mem_append.mp hx with hx | hx
    · exact (hi x hx).of_bare fun k hk => hn k (Layout.mem_nodes (b := x.1) hx hk)
    · exact fun k hk => ((hl x hx).2.2.2 k (Parts.mem_all_of_tail hk)).len

theorem Moved.stay (op : Op) (hst : Still h h')
    (hn : ∀ k ∈ l.nodes, (h'.nodes k).bare = (h.nodes k).bare)
    (hw : Writes (Written h l.nodes l.kept) h.mem h'.mem) : Moved h h' l l P op := by
  have hadd : Moved h h' l (l ++ []) P op := .add op hst hn hw (by simp)
  rwa [List.append_nil] at hadd

theorem Inv.add_new (hI : Inv w l P) (cfg : Config) (op : Op) (size : Int) :
    ∃ b h' p', newLinkBuffer w.heap cfg size = (b, h') ∧ Inv ⟨h', w.bufs ++ [b]⟩
      (l ++ [(b, p')]) P ∧ Moved w.heap h' l
      (l ++ [(b, p')]) P op ∧ (∀ k ∈ p'.all, New w.heap h' k) ∧ p'.back ≠ [] ∧ p'.spare = [] := by
  obtain ⟨i, h', hnew, hb, hs, hk, hst, hmem, hn⟩ := newLinkBuffer_spec hI.safe cfg size
  have hall : ∀ k ∈ (⟨[], [], [i], []⟩ : Parts).all, New w.heap h' k := fun k hk => by
    obtain rfl : k = i := by simpa [Parts.all] using hk
    exact hn
  refine ⟨_, h', ⟨[], [], [i], []⟩, hnew, ⟨by simp [hI.bufs], fun x hx => ?_, ?_⟩,
    .add op hst hk.node (by rw [hmem]; exact .refl) fun x hx => ?_, hall, by simp, rfl⟩
  · rcases List.mem_append.mp hx with hx | hx
    · exact (hI.buffer x hx).keeps hk fun k hk => Layout.mem_nodes (b := x.1) hx hk
    · rw [List.mem_singleton.mp hx]
      exact hb
  · refine (hs.perm ?_).kept_perm ?_
    · simpa [Layout.nodes, Parts.all] using (List.perm_append_singleton i _).symm
    · simp [Layout.kept, LinkBuffer.kept]
  · rw [List.mem_singleton.mp hx]
    exact ⟨rfl, .inl (by simp), rfl, hall⟩

theorem lend_inv (hI : Inv w l P) (bs : List UInt8) (hx : w.exec cfg (.lend bs) = some (o, w')) :
    Inv w' l P ∧ Moved w.heap w'.heap l l P (.lend bs) ∧ Still w.heap w'.heap ∧
      Writes (fun x => w.heap.owner x.1 = .mcache) w.heap.mem w'.heap.mem ∧ w'.bufs = w.bufs := by
  simp only [World.exec, World.lend, Option.some.injEq, Prod.mk.injEq] at hx
  obtain ⟨-, rfl⟩ := hx
  have htop := hI.safe.counted.top _ le_rfl
  have hlent : ∀ x, w.heap.owner x = .lent → (w.heap.take w.heap.top .lent).owner x = .lent :=
    fun x hx => by
    by_cases he : x = w.heap.top <;> simp [Heap.take, he, hx]
  have hst :
    Still w.heap
      ((w.heap.take w.heap.top .lent).copy ⟨w.heap.top, 0, bs.length, bs.length⟩ bs) := by
    refine ⟨fun x hx => ?_, rfl, le_rfl, Nat.le_max_left _ _⟩
    have hne : x ≠ w.heap.top := by
      rintro rfl
      exact hx htop
    simp [Heap.copy, Heap.take, hne]
  have hs : Safe (w.heap.take w.heap.top .lent) l.nodes l.kept P :=
    hI.safe.of_counted (hI.safe.counted.take htop) hlent fun _ _ => rfl
  have hw : Writes (fun x => w.heap.owner x.1 = .mcache) w.heap.mem
      ((w.heap.take w.heap.top .lent).copy ⟨w.heap.top, 0, bs.length, bs.length⟩ bs).mem := by
    refine writes_store.mono fun x hx => ?_
    rw [(mem_cells.mp hx).1]
    exact htop
  refine ⟨⟨hI.bufs, fun x hx => (hI.buffer x hx).of_bare hlent fun _ _ => rfl, hs.store⟩, ?_, hst,
    hw, rfl⟩
  exact .stay (.lend bs) hst (fun _ _ => rfl) (hw.mono fun x hx => .inl (.inl hx))

theorem SlicePost.inv {rd : LinkBuffer} {X : List Nat} (hF : Focus w l rest i b p P)
    (hI : Inv w l P) (hp : SlicePost w.heap h' b b' rd p p' X n rest.nodes rest.kept P) :
    Inv ⟨h', w.bufs.set i b' ++ [rd]⟩ (l.set i (b', p') ++ [(rd, ⟨[], X, [], []⟩)]) P := by
  have hX : (⟨[], X, [], []⟩ : Parts).all = X := by simp [Parts.all]
  refine ⟨by simp [hI.bufs, List.map_set], fun x hx => ?_, ?_⟩
  · rcases List.mem_append.mp hx with hx | hx
    · rcases List.mem_cons.mp ((hF.set _).mem_iff.mp hx) with rfl | hx
      · exact hp.buffer
      · exact (hI.buffer x (hF.perm.mem_iff.mpr (by simp [hx]))).keeps hp.keeps fun k hk =>
          Layout.mem_nodes (b := x.1) hx hk
    · rw [List.mem_singleton.mp hx]
      exact hp.reader
  · refine (hp.safe.perm ?_).kept_perm ?_
    · have := Layout.nodes_perm ((hF.set (b', p')).append_right [(rd, ⟨[], X, [], []⟩)])
      refine (List.perm_iff_count.mpr fun a => ?_).trans this.symm
      simp [Layout.nodes, hX]
      omega
    · have := Layout.kept_perm ((hF.set (b', p')).append_right [(rd, ⟨[], X, [], []⟩)])
      refine (List.perm_iff_count.mpr fun a => ?_).trans this.symm
      simp [Layout.kept, hp.kept]

theorem SlicePost.moved {rd : LinkBuffer} {X : List Nat} {m : Int} (hF : Focus w l rest i b p P)
    (hp : SlicePost w.heap h' b b' rd p p' X n rest.nodes rest.kept P) :
    Moved w.heap h' l (l.set i (b', p') ++ [(rd, ⟨[], X, [], []⟩)]) P (.slice j m) := by
  have hn : ∀ {k}, k ∈ l.nodes ↔ k ∈ p.all ++ rest.nodes := (Layout.nodes_perm hF.perm).mem_iff
  have hk : ∀ {q}, q ∈ l.kept ↔ q ∈ b.kept ++ rest.kept := (Layout.kept_perm hF.perm).mem_iff
  have hset := (hF.set (b', p')).append_right [(rd, (⟨[], X, [], []⟩ : Parts))]
  have hlike : ∀ k ∈ rest.nodes, (w.heap.nodes k).Like (h'.nodes k) := fun k hk =>
    .of_bare (hp.keeps.node k hk)
  have hp' : (b, p) ∈ l := hF.perm.mem_iff.mpr (by simp)
  have hnode : ∀ k ∈ Layout.nodes (l.set i (b', p') ++ [(rd, (⟨[], X, [], []⟩ : Parts))]),
      k ∈ l.nodes ∧ (w.heap.nodes k).Like (h'.nodes k) ∨ k ∈ X := fun k hk' => by
    have hk' := (Layout.nodes_perm hset).mem_iff.mp hk'
    simp only [List.cons_append, Layout.nodes_cons, Layout.nodes_append, List.mem_append] at hk'
    rcases hk' with hk' | hk' | hk'
    · obtain ⟨h1, -, h2⟩ := hp.sameBuf k hk'
      exact .inl ⟨hn.mpr (List.mem_append_left _ h1), h2⟩
    · exact .inl ⟨hn.mpr (List.mem_append_right _ hk'), hlike k hk'⟩
    · exact .inr (by simpa [Layout.nodes, Parts.all] using hk')
  refine ⟨hp.keeps.later.mono fun _ hx => hx.imp_right .inl,
    fun q hq =>
    ?_, by
    rw [hp.mem]; exact .refl, fun _ k hk ho hcap => ?_,
      fun hsl => by
      simp [Op.slices] at hsl, fun _ hf x hx => ?_, fun _ hu k hk hv => ?_, fun _ _ hi x hx => ?_⟩
  · have hq := (Layout.kept_perm hset).mem_iff.mp hq
    simp only [List.cons_append, Layout.kept_cons, Layout.kept_append, List.mem_append] at hq
    rcases hq with hq | hq | hq
    · exact .inl ⟨q, hk.mpr (List.mem_append_left _ (hp.caches q hq)), rfl⟩
    · exact .inl ⟨q, hk.mpr (List.mem_append_right _ hq), rfl⟩
    · simp [Layout.kept, hp.kept] at hq
  · rcases hnode k hk with ⟨hk, hl⟩ | hk
    · exact .inl ⟨k, hk, hl.stays⟩
    · exact absurd ho (hp.origin k hk)
  · have hx := hset.mem_iff.mp hx
    simp only [List.cons_append, List.mem_cons, List.mem_append, List.not_mem_nil, or_false] at hx
    rcases hx with rfl | hx | rfl
    · have hu : h'.unflushed p'.back = w.heap.unflushed p.back := by
        rw [hp.back]
        refine Heap.unflushed_congr fun k hk => ?_
        have := (hp.sameBuf k (Parts.mem_all_of_back (hp.back ▸ hk))).2.1
        simp only [Heap.pending, this.1, this.2]
      exact flushed_of_length (l := []) (by rw [hp.later]; rfl) (by rw [hu]; rfl) (hf _ hp')
    · rw [Heap.content_bare fun k hk => hp.keeps.node k
        (Layout.mem_nodes (b := x.1) hx (Parts.mem_all_of_back (List.mem_of_mem_tail hk)))]
      exact hf x (hF.perm.mem_iff.mpr (by simp [hx]))
    · rfl
  · rcases hnode k hk with ⟨hk, hl⟩ | hk
    · rw [hl.blk]
      exact hp.keeps.later.lent _ (hu k hk (hl.view.mp hv))
    · exact absurd hv.1 (hp.origin k hk)
  · have hx := hset.mem_iff.mp hx
    simp only [List.cons_append, List.mem_cons, List.mem_append, List.not_mem_nil, or_false] at hx
    rcases hx with rfl | hx | rfl
    · intro k hk
      rw [(hp.sameBuf k (Parts.mem_all_of_tail hk)).2.1.1]
      rw [hp.back, hp.spare] at hk
      exact hi _ hp' k hk
    · exact (hi x (hF.perm.mem_iff.mpr (by simp [hx]))).of_bare fun k hk =>
        hp.keeps.node k (Layout.mem_nodes (b := x.1) hx hk)
    · intro k hk
      cases hk

theorem slice_inv {m : Int} (hI : Inv w l P) (hi : w.bufs[i]? = some b) (hm : b.Modest w.heap m)
    (hx : w.exec cfg (.slice i m) = some (o, w')) :
    ∃ l', Inv w' l' P ∧ Moved w.heap w'.heap l l' P (.slice i m) ∧
      (o = .done → ∃ L rd q, l' = L ++ [(rd, q)] ∧ L.length = l.length ∧
        ((∀ k ∈ taken w.heap (b.early w.heap) m.toNat, Based w.heap k) → ∀ k ∈ q.all,
          Sound w'.heap k)) := by
  have hset : w.bufs.set i b = w.bufs := by
    obtain ⟨hlt, rfl⟩ := List.getElem?_eq_some_iff.mp hi
    exact List.set_getElem_self hlt
  simp only [World.exec, hi, Option.bind_eq_bind, Option.bind_some] at hx
  obtain ⟨⟨r, b', h'⟩, hslice, hx⟩ := Option.bind_eq_some_iff.mp hx
  by_cases h0 : m ≤ 0
  · obtain ⟨rd, h₁, q, hnew, hI', hM, hq, -⟩ := hI.add_new cfg (.slice i m) 0
    simp only [LinkBuffer.slice, if_pos h0, hnew, Option.some.injEq, Prod.mk.injEq] at hslice
    obtain ⟨rfl, rfl, rfl⟩ := hslice
    simp only [hset, Option.pure_def, Option.some.injEq, Prod.mk.injEq] at hx
    obtain ⟨-, rfl⟩ := hx
    exact ⟨_, hI', hM, fun _ =>
      ⟨l, rd, q, rfl, rfl, fun _ k hk r hr => by simp [(hq k hk).origin] at hr⟩⟩
  · by_cases hlen : b.length < m
    · simp only [LinkBuffer.slice, if_neg h0, if_pos hlen, Option.some.injEq, Prod.mk.injEq]
        at hslice
      obtain ⟨rfl, rfl, rfl⟩ := hslice
      simp only [hset, Option.pure_def, Option.some.injEq, Prod.mk.injEq] at hx
      obtain ⟨rfl, rfl⟩ := hx
      refine ⟨l, hI, ?_, fun he => by cases he⟩
      exact .stay (.slice i m) .refl (fun _ _ => rfl) .refl
    · obtain ⟨p, rest, hF⟩ := hI.focus hi
      obtain ⟨n, rfl⟩ : ∃ n : Nat, m = n := ⟨m.toNat, by omega⟩
      have hn := hm (by omega)
      rw [hF.buffer.readable_eq hF.safe] at hn
      obtain ⟨rd, b₁, h₁, p', X, htake, hp⟩ :=
        takeSlice_spec (n := n) cfg hF.buffer hF.safe hF.viewed (by omega) (by omega)
      simp only [LinkBuffer.slice, if_neg h0, if_neg hlen, Int.toNat_natCast, htake,
        Option.map_some, Option.some.injEq, Prod.mk.injEq] at hslice
      obtain ⟨rfl, rfl, rfl⟩ := hslice
      simp only [Option.pure_def, Option.some.injEq, Prod.mk.injEq] at hx
      obtain ⟨-, rfl⟩ := hx
      refine ⟨_, hp.inv hF hI, hp.moved hF,
        fun _ => ⟨_, rd, _, rfl, List.length_set, fun hbase => ?_⟩⟩
      rw [hF.buffer.early_eq hF.safe, Int.toNat_natCast] at hbase
      simpa [Parts.all] using hp.sound hbase

theorem perm_pair {α : Type*} {l : List α} {x y : α} (hij : i ≠ j) (hi : l[i]? = some x)
    (hj : l[j]? = some y) : ∃ rest, l.Perm (x :: y :: rest) ∧
      ∀ x' y', ((l.set i x').set j y').Perm (x' :: y' :: rest) := by
  induction l generalizing i j with
  | nil => simp at hi
  | cons a l ih =>
    have hself : ∀ {k z}, l[k]? = some z → l.Perm (z :: l.eraseIdx k) := fun {k z} hk => by
      obtain ⟨hlt, rfl⟩ := List.getElem?_eq_some_iff.mp hk
      exact (List.getElem_cons_eraseIdx_perm hlt).symm
    cases i with
    | zero =>
      cases j with
      | zero => exact absurd rfl hij
      | succ j =>
        obtain rfl : a = x := by simpa using hi
        have hj : l[j]? = some y := by simpa using hj
        exact ⟨l.eraseIdx j, (hself hj).cons a, fun x' y' => (perm_set hj y').cons x'⟩
    | succ i =>
      have hi : l[i]? = some x := by simpa using hi
      cases j with
      | zero =>
        obtain rfl : a = y := by simpa using hj
        exact ⟨l.eraseIdx i, ((hself hi).cons a).trans (.swap x a _), fun x' y' =>
          ((perm_set hi x').cons y').trans (.swap x' y' _)⟩
      | succ j =>
        have hj : l[j]? = some y := by simpa using hj
        obtain ⟨rest, h1, h2⟩ := ih (by simpa using hij) hi hj
        have hmid : ∀ u v, (a :: u :: v :: rest).Perm (u :: v :: a :: rest) := fun u v =>
          (List.perm_middle : ([u, v] ++ a :: rest).Perm _).symm
        exact ⟨a :: rest, (h1.cons a).trans (hmid x y),
          fun x' y' => ((h2 x' y').cons a).trans (hmid x' y')⟩

structure Pair (w : World) (l rest : Layout) (i j : Nat) (b buf : LinkBuffer) (p q : Parts)
    (P : Nat → Prop) : Prop where
  left : l[i]? = some (b, p)
  right : l[j]? = some (buf, q)
  perm : l.Perm ((b, p) :: (buf, q) :: rest)
  sets : ∀ x y, ((l.set i x).set j y).Perm (x :: y :: rest)
  buffer : Buffer w.heap b p
  donor : Buffer w.heap buf q
  safe : Safe w.heap (p.all ++ q.all ++ rest.nodes) (b.kept ++ buf.kept ++ rest.kept) P
  viewed : Viewed w.heap rest.nodes

theorem Inv.pair {buf : LinkBuffer} (hI : Inv w l P) (hij : i ≠ j) (hi : w.bufs[i]? = some b)
    (hj : w.bufs[j]? = some buf) : ∃ p q rest, Pair w l rest i j b buf p q P := by
  rw [hI.bufs, List.getElem?_map, Option.map_eq_some_iff] at hi hj
  obtain ⟨⟨b, p⟩, hli, rfl⟩ := hi
  obtain ⟨⟨buf, q⟩, hlj, rfl⟩ := hj
  obtain ⟨rest, hperm, hsets⟩ := perm_pair hij hli hlj
  refine ⟨p, q, rest, hli, hlj, hperm, hsets, hI.buffer _ (List.mem_of_getElem? hli),
    hI.buffer _ (List.mem_of_getElem? hlj), ?_, ?_⟩
  · have := (hI.safe.perm (Layout.nodes_perm hperm)).kept_perm (Layout.kept_perm hperm)
    simpa using this
  · exact Layout.viewed fun x hx => hI.buffer x (hperm.mem_iff.mpr (by simp [hx]))

theorem Pair.back {buf buf' : LinkBuffer} {q : Parts} (hP : Pair w l rest i j b buf p q P)
    (h0 : ¬ buf.length + buf.mallocSize ≤ 0)
    (hwb : b.writeBuffer buf w.heap = some (b', buf', h')) :
    p.back ≠ [] ∧ q.back ≠ [] := by
  refine ⟨fun he => ?_, fun he => ?_⟩
  · simp [LinkBuffer.writeBuffer, h0, (write_none hP.buffer he).1] at hwb
  · simp only [LinkBuffer.writeBuffer, if_neg h0, (write_none hP.donor he).1, Option.bind_eq_bind,
      Option.bind_none, Option.bind_fun_none, reduceCtorEq] at hwb

section

variable {buf buf' : LinkBuffer} {q : Parts} (hP : Pair w l rest i j b buf p q P)
  (hA : AppendPost w.heap h' b b' buf buf' p q p' rest.nodes rest.kept P)
include hP hA

theorem AppendPost.mem_nodes (hk : k ∈ Layout.nodes ((l.set i (b', p')).set j (buf', .none))) :
    k ∈ l.nodes ∧ (w.heap.nodes k).Like (h'.nodes k) := by
  have hn : ∀ {k}, k ∈ l.nodes ↔ k ∈ p.all ++ (q.all ++ Layout.nodes rest) :=
    (Layout.nodes_perm hP.perm).mem_iff
  have hk := (Layout.nodes_perm (hP.sets _ _)).mem_iff.mp hk
  simp only [Layout.nodes_cons, List.mem_append] at hk
  rcases hk with hk | hk | hk
  · obtain ⟨h1, h2⟩ := hA.nodes k hk
    exact ⟨hn.mpr (by simp only [List.mem_append]; tauto), h2.like⟩
  · cases hk
  · exact ⟨hn.mpr (by simp [hk]), .of_bare (hA.keeps.node k hk)⟩

theorem AppendPost.kept_perm : (Layout.kept ((l.set i (b', p')).set j (buf', .none))).Perm
    (b.kept ++ (buf.kept ++ rest.kept)) := by
  have := Layout.kept_perm (hP.sets (b', p') (buf', .none))
  have hdonor : buf'.kept = buf.kept := by
    rw [hA.donor]
    rfl
  simpa [hA.kept, hdonor] using this

theorem AppendPost.inv (hI : Inv w l P) :
    Inv ⟨h', (w.bufs.set i b').set j buf'⟩ ((l.set i (b', p')).set j (buf', .none)) P := by
  refine ⟨by simp [hI.bufs, List.map_set], fun x hx => ?_, ?_⟩
  · rcases List.mem_cons.mp ((hP.sets _ _).mem_iff.mp hx) with rfl | hx
    · exact hA.buffer
    · rcases List.mem_cons.mp hx with rfl | hx
      · rw [hA.donor]
        exact .none rfl rfl rfl rfl rfl rfl hP.donor.peek
      · exact (hI.buffer x (hP.perm.mem_iff.mpr (by simp [hx]))).keeps hA.keeps fun k hk =>
          Layout.mem_nodes (b := x.1) hx hk
  · refine (hA.safe.perm ?_).kept_perm ?_
    · exact (Layout.nodes_perm (hP.sets (b', p') (buf', .none))).symm
    · have := (hA.kept_perm hP).symm
      simpa using this

theorem AppendPost.moved (hback : p.back ≠ []) :
    Moved w.heap h' l ((l.set i (b', p')).set j (buf', .none)) P (.append i j) := by
  have hkept : ∀ s ∈ Layout.kept ((l.set i (b', p')).set j (buf', .none)), s ∈ l.kept := fun s hs =>
    (Layout.kept_perm hP.perm).mem_iff.mpr ((hA.kept_perm hP).mem_iff.mp hs)
  refine ⟨hA.keeps.later.mono fun _ hx => hx.imp_right .inl, fun s hs => .inl ⟨s, hkept s hs, rfl⟩,
    by
    rw [hA.mem]; exact .refl, fun _ => .of_like fun k hk => hA.mem_nodes hP hk, fun _ hw x hx => ?_,
      fun ha => by simp [Op.appends] at ha,
    fun _ hu => hu.kin hA.keeps.later.lent
    fun k hk => ⟨(hA.mem_nodes hP hk).1, (hA.mem_nodes hP hk).2.kin⟩,
    fun ha => by simp [Op.appends] at ha⟩
  rcases List.mem_cons.mp ((hP.sets _ _).mem_iff.mp hx) with rfl | hx
  · rw [hA.parts]
    exact .inl (by simp [hback])
  · rcases List.mem_cons.mp hx with rfl | hx
    · exact .inr rfl
    · exact hw x (hP.perm.mem_iff.mpr (by simp [hx]))

end

theorem append_inv (hI : Inv w l P) (hij : i ≠ j) (hx : w.exec cfg (.append i j) = some (o, w')) :
    ∃ l', Inv w' l' P ∧ Moved w.heap w'.heap l l' P (.append i j) := by
  simp only [World.exec, Option.bind_eq_bind] at hx
  obtain ⟨b, hi, hx⟩ := Option.bind_eq_some_iff.mp hx
  obtain ⟨buf, hj, hx⟩ := Option.bind_eq_some_iff.mp hx
  obtain ⟨⟨b', buf', h'⟩, hwb, hx⟩ := Option.bind_eq_some_iff.mp hx
  simp only [Option.pure_def, Option.some.injEq, Prod.mk.injEq] at hx
  obtain ⟨-, rfl⟩ := hx
  have hset : ∀ {k : Nat} {c}, w.bufs[k]? = some c → w.bufs.set k c = w.bufs := fun {k c} hk => by
    obtain ⟨hlt, rfl⟩ := List.getElem?_eq_some_iff.mp hk
    exact List.set_getElem_self hlt
  by_cases h0 : buf.length + buf.mallocSize ≤ 0
  · simp only [LinkBuffer.writeBuffer, if_pos h0, Option.some.injEq, Prod.mk.injEq] at hwb
    obtain ⟨rfl, rfl, rfl⟩ := hwb
    rw [hset hi, hset hj]
    exact ⟨l, hI, .stay (.append i j) .refl (fun _ _ => rfl) .refl⟩
  · obtain ⟨p, q, rest, hP⟩ := hI.pair hij hi hj
    obtain ⟨hback, hqb⟩ := hP.back h0 hwb
    obtain ⟨b₁, buf₁, h₁, p', hwb₁, hA⟩ :=
      writeBuffer_spec hP.buffer hP.donor hP.safe hP.viewed hback hqb (Int.not_le.mp h0)
    rw [hwb₁, Option.some.injEq, Prod.mk.injEq, Prod.mk.injEq] at hwb
    obtain ⟨rfl, rfl, rfl⟩ := hwb
    exact ⟨_, hA.inv hP hI, hA.moved hP hback⟩

namespace World

def Careful (w : World) : Op → Prop
  | .act i a => ∀ b ∈ w.bufs[i]?, b.Careful w.heap w.nodes a
  | .slice i n => ∀ b ∈ w.bufs[i]?, b.Modest w.heap n
  | _ => True

instance (w : World) : DecidablePred w.Careful
  | .act i a => inferInstanceAs (Decidable (∀ b ∈ w.bufs[i]?, b.Careful w.heap w.nodes a))
  | .slice i n => inferInstanceAs (Decidable (∀ b ∈ w.bufs[i]?, b.Modest w.heap n))
  | .new _ | .lend _ | .append _ _ => inferInstanceAs (Decidable True)

def CutsFree (w : World) (P : Nat → Prop) : Op → Prop
  | .act i a => ∀ b ∈ w.bufs[i]?, b.CutsFree w.heap P a.remain
  | _ => True

end World

theorem Inv.nodes_eq (hI : Inv w l P) : w.nodes = l.nodes := by
  rw [World.nodes, hI.bufs, List.flatMap_map, Layout.nodes]
  refine List.flatMap_congr fun x hx => ?_
  obtain ⟨A, B, rfl⟩ := List.append_of_mem hx
  exact (hI.buffer x hx).chain_eq (hI.safe.perm (Layout.nodes_perm List.perm_middle))

theorem step_inv (hI : Inv w l P) (hl : w.legal op) (hc : w.Careful op) (hP : w.CutsFree P op)
    (hx : w.exec cfg op = some (o, w')) :
    ∃ l' P', Inv w' l' P' ∧ (∀ x, P x → P' x) ∧ Moved w.heap w'.heap l l' P op := by
  cases op with
  | new size =>
    obtain ⟨b, h', p', hnew, hI', hM, -⟩ := hI.add_new cfg (.new size) size
    simp only [World.exec, hnew, Option.some.injEq, Prod.mk.injEq] at hx
    obtain ⟨-, rfl⟩ := hx
    exact ⟨_, P, hI', fun _ => id, hM⟩
  | lend bs =>
    obtain ⟨hI', hM, -⟩ := lend_inv hI bs hx
    exact ⟨l, P, hI', fun _ => id, hM⟩
  | act i a =>
    obtain ⟨b, b', h', hi, hrun, rfl⟩ := World.exec_act.mp hx
    obtain ⟨p, rest, hF⟩ := hI.focus hi
    have hl : b.legal w.heap a := by simpa [World.legal, hi] using hl
    obtain ⟨p', P', hA⟩ := run_acted hF.buffer hF.safe hF.viewed hl (hc b hi)
      (fun k hk => hI.nodes_eq ▸ (Layout.nodes_perm hF.perm).mem_iff.mpr hk) (hP b hi) hrun
    exact ⟨_, P', hF.update hI hA.buffer hA.safe hA.node hA.later.lent, hA.pins,
      hA.moved hF ⟨rfl, rfl⟩⟩
  | slice i m =>
    have hi : ∃ b, w.bufs[i]? = some b := by
      simp only [World.exec, Option.bind_eq_bind] at hx
      obtain ⟨b, hi, -⟩ := Option.bind_eq_some_iff.mp hx
      exact ⟨b, hi⟩
    obtain ⟨b, hi⟩ := hi
    obtain ⟨l', hI', hM, -⟩ := slice_inv hI hi (hc b hi) hx
    exact ⟨l', P, hI', fun _ => id, hM⟩
  | append i j =>
    obtain ⟨l', hI', hM⟩ := append_inv hI (by simpa [World.legal] using hl) hx
    exact ⟨l', P, hI', fun _ => id, hM⟩

theorem Inv.start (mem : Nat → Nat → UInt8) (picks : Nat → Nat) :
    Inv (World.start mem picks) [] fun _ => False where
  bufs := rfl
  buffer := by simp
  safe := by
    have h0 : ∀ i, ¬ 0 < refs (World.start mem picks).heap [] i := by simp [refs]
    refine ⟨List.nodup_nil, ?_,
      ⟨by simp [Layout.nodes], by simp [Layout.nodes, Viewed], by simp [Layout.nodes], by
        simp [Layout.nodes]⟩⟩
    constructor
    all_goals simp [World.start, Layout.kept, Layout.nodes, refs]

theorem Inv.unpin (hI : Inv w l P) (hP : ∀ x, P' x → P x) : Inv w l P' :=
  ⟨hI.bufs, hI.buffer, hI.safe.unpin hP⟩

end Netpoll.Nocopy
