import NebulaX.Proofs.Level

/-!
# `NebulaX.Proofs.Side`: one side of a book

The three surgeries of `NebulaX.Proofs.Level` at the scale of a whole side: the level of
the order is found in the `std::map`, operated on, and stored back, or created, or erased.
Each lemma says what the slots of the side are afterwards, in serving order:

* `EntriesRep.linkFirst` and `EntriesRep.linkTail`: the new slot stands behind every slot
  of a price not worse and before every slot of a worse price;
* `EntriesRep.unlink`: the slot is gone and the others keep their order;
* `EntriesRep.reduce`: the slots are the old ones.

All of them split the side into the levels before, the level and the levels after;
`EntriesRep.around` is the frame of that split. `EntriesRep.sorted` is price priority.
-/

set_option autoImplicit false

namespace NebulaX

open NebulaX.Lib

/-- The pools differ in list links only. -/
def Relinks (st st' : UInt32 → Order) : Prop :=
  ∀ i, ∃ p n, st' i = { st i with prevIdx := p, nextIdx := n }

/-- Store a level at its price, or erase it when it counts nothing. -/
def storeOrErase {d : BookSide} (m : LevelMap d) (price : UInt32) (lvl : PriceLevel) :
    LevelMap d :=
  if lvl.count = 0 then m.erase price else m.insert price lvl

/-- The side before and after slot `idx` left it: `l` was served before it, `r` after. -/
structure Unlinked {d : BookSide} (st st' : UInt32 → Order) (m m' : LevelMap d)
    (idx : UInt32) (l r : List UInt32) : Prop where
  before : entrySlots st m.entries = l ++ idx :: r
  rep : EntriesRep st' d m'.entries
  after : entrySlots st' m'.entries = l ++ r
  frame : ∀ i, i ∉ entrySlots st m.entries → st' i = st i
  keeps : Relinks st st'

/-- The side before and after slot `idx` entered it, behind `l` and before `r`. -/
structure Linked {d : BookSide} (st st' : UInt32 → Order) (m m' : LevelMap d)
    (idx : UInt32) (l r : List UInt32) : Prop where
  before : entrySlots st m.entries = l ++ r
  served : ∀ i ∈ l, ¬ d.Better (st idx).price (st i).price
  later : ∀ i ∈ r, d.Better (st idx).price (st i).price
  rep : EntriesRep st' d m'.entries
  after : entrySlots st' m'.entries = l ++ idx :: r
  frame : ∀ i, i ∉ entrySlots st m.entries → i ≠ idx → st' i = st i
  keeps : Relinks st st'

namespace EntriesRep

variable {st st' : UInt32 → Order} {d : BookSide} {m : LevelMap d}

/-- A level of a side and the levels around it. -/
theorem level_of_mem (h : EntriesRep st d m.entries) {idx : UInt32}
    (hi : idx ∈ entrySlots st m.entries) :
    ∃ lvl, m.find? (st idx).price = some lvl ∧ idx ∈ lvl.slots st := by
  obtain ⟨-, e, he, hp, hie⟩ := h.order_of_mem hi
  refine ⟨e.2, ?_, hie⟩
  rw [hp, ← SortedMap.mem_entries_iff]
  exact he

/-- The prices of a side never get better along the queue. -/
theorem sorted (h : EntriesRep st d m.entries) :
    (entrySlots st m.entries).Pairwise fun i j => ¬ d.Better (st j).price (st i).price := by
  have hs := m.sorted
  revert h hs
  generalize m.entries = es
  intro h hs
  induction es with
  | nil => simp
  | cons e es ih =>
      obtain ⟨he, hes⟩ := cons_iff.mp h
      obtain ⟨hlt, hs⟩ := List.pairwise_cons.mp hs
      rw [entrySlots_cons, List.pairwise_append]
      refine ⟨?_, ih hes hs, fun i hi j hj => ?_⟩
      · refine List.pairwise_of_forall_mem_list fun i hi j hj => ?_
        rw [(he.orders i hi).2, (he.orders j hj).2]
        exact irrefl_of d.Better e.1
      · obtain ⟨-, e', he', hp, -⟩ := hes.order_of_mem hj
        rw [(he.orders i hi).2, hp]
        exact asymm_of d.Better (hlt e' he')

/-- Levels the writes do not touch: the parts around the level of a price. -/
theorem around (st' : UInt32 → Order) {pre post : List (UInt32 × PriceLevel)}
    {e : UInt32 × PriceLevel}
    (h : EntriesRep st d (pre ++ e :: post))
    (hnd : (entrySlots st (pre ++ e :: post)).Nodup)
    (hframe : ∀ i, i ∉ e.2.slots st → i ∈ entrySlots st (pre ++ e :: post) →
      (st' i).bookPart = (st i).bookPart) :
    (EntriesRep st' d pre ∧ entrySlots st' pre = entrySlots st pre) ∧
      EntriesRep st' d post ∧ entrySlots st' post = entrySlots st post := by
  obtain ⟨hpre, hepost⟩ := append_iff.mp h
  obtain ⟨-, hpost⟩ := cons_iff.mp hepost
  rw [entrySlots_append, entrySlots_cons, List.nodup_append] at hnd
  obtain ⟨-, hnd2, hdis⟩ := hnd
  rw [List.nodup_append] at hnd2
  refine ⟨hpre.congr fun i hi => hframe i (fun hie => ?_) (by simp [hi]),
    hpost.congr fun i hi => hframe i (fun hie => ?_) (by simp [hi])⟩
  · exact hdis i hi i (by simp [hie]) rfl
  · exact hnd2.2.2 i hie i hi rfl

/-- A slot leaves its side. -/
theorem unlink (h : EntriesRep st d m.entries) (hnd : (entrySlots st m.entries).Nodup)
    {idx : UInt32} {lvl : PriceLevel} (hl : m.find? (st idx).price = some lvl)
    (hi : idx ∈ lvl.slots st) :
    ∃ l r, Unlinked st (LevelRep.unlinkedFrom st idx) m
      (storeOrErase m (st idx).price
        (OrderBook.levelWithout lvl idx (LevelRep.unlinkedFrom st idx idx))) idx l r := by
  obtain ⟨pre, post, hent, -, -, hins, her⟩ := SortedMap.entries_of_find?_eq_some hl
  rw [hent] at h hnd
  have hlevel : LevelRep st d (st idx).price lvl (lvl.slots st) :=
    (cons_iff.mp (append_iff.mp h).2).1
  obtain ⟨xl, xr, hx⟩ := List.append_of_mem hi
  rw [hx] at hlevel
  have happ := LevelRep.unlinkedFrom_apply hlevel.prev_ne
  obtain ⟨hp, hn⟩ := hlevel.list.links
  -- A slot that is written is a neighbour, so a slot of the level.
  have hframe : ∀ i, i ∉ lvl.slots st → LevelRep.unlinkedFrom st idx i = st i := by
    intro i hout
    rw [happ, if_neg, if_neg]
    · rintro ⟨hne, rfl⟩
      refine hout ?_
      rw [hx, hp]
      have hxl : xl ≠ [] := by
        rintro rfl
        exact hne hp
      exact List.mem_append_left _ (getLastD_mem hxl uint32Max)
    · rintro ⟨hne, rfl⟩
      refine hout ?_
      rw [hx, hn]
      cases xr with
      | nil => exact absurd hn hne
      | cons y ys => simp
  obtain ⟨⟨hpre, hspre⟩, hpost, hspost⟩ :=
    h.around (LevelRep.unlinkedFrom st idx) hnd fun i hout _ => by rw [hframe i hout]
  refine ⟨entrySlots st pre ++ xl, xr ++ entrySlots st post, ?_⟩
  have hbefore : entrySlots st m.entries
      = (entrySlots st pre ++ xl) ++ idx :: (xr ++ entrySlots st post) := by
    rw [hent, entrySlots_append, entrySlots_cons, hx]
    simp
  have hkeeps : Relinks st (LevelRep.unlinkedFrom st idx) := fun i => ⟨_, _, happ i⟩
  have hout : ∀ i, i ∉ entrySlots st m.entries → LevelRep.unlinkedFrom st idx i = st i := by
    intro i hi
    refine hframe i fun hil => hi ?_
    rw [hent]
    simp [hil]
  by_cases hrest : xl ++ xr = []
  · -- The order was alone: the level goes.
    obtain ⟨rfl, rfl⟩ := List.append_eq_nil_iff.mp hrest
    rw [storeOrErase, if_pos (LevelRep.count_levelWithout hlevel _)]
    refine ⟨hbefore, ?_, ?_, hout, hkeeps⟩
    · rw [her]
      exact append_iff.mpr ⟨hpre, hpost⟩
    · rw [her, entrySlots_append, hspre, hspost]
      simp
  · have hnew := hlevel.remove hrest
    rw [storeOrErase, if_neg hnew.count_ne_zero]
    refine ⟨hbefore, ?_, ?_, hout, hkeeps⟩
    · rw [hins]
      exact append_iff.mpr ⟨hpre, cons_iff.mpr ⟨hnew.slots_eq.symm ▸ hnew, hpost⟩⟩
    · rw [hins, entrySlots_append, entrySlots_cons, hspre, hspost, hnew.slots_eq]
      simp

/-- A new slot enters a side that has no level of its price. -/
theorem linkFirst (h : EntriesRep st d m.entries) {idx : UInt32}
    (hl : m.find? (st idx).price = none) (hnew : idx ∉ entrySlots st m.entries)
    (hne : idx ≠ uint32Max) (hs : (st idx).side.RestsOn d) :
    ∃ l r, Linked st
      (Function.update st idx { st idx with prevIdx := uint32Max, nextIdx := uint32Max }) m
      (m.insert (st idx).price ⟨idx, idx, 1, (st idx).remainingQty⟩) idx l r := by
  obtain ⟨pre, post, hent, hlt, hgt, hins⟩ := SortedMap.insert_of_find?_eq_none hl
  obtain ⟨st', hst'⟩ : ∃ st', st' =
    Function.update st idx { st idx with prevIdx := uint32Max, nextIdx := uint32Max } := ⟨_, rfl⟩
  rw [← hst']
  have hother : ∀ i, i ≠ idx → st' i = st i := by
    intro i hi
    rw [hst', Function.update_of_ne hi]
  have hself : st' idx = { st idx with prevIdx := uint32Max, nextIdx := uint32Max } := by
    rw [hst', Function.update_self]
  have hframe : ∀ i ∈ entrySlots st m.entries, (st' i).bookPart = (st i).bookPart := by
    intro i hi
    rw [hother i fun e => hnew (e ▸ hi)]
  rw [hent] at h hframe
  obtain ⟨hprerep, hpostrep⟩ := append_iff.mp h
  obtain ⟨hpre, hspre⟩ := hprerep.congr fun i hi => hframe i (by simp [hi])
  obtain ⟨hpost, hspost⟩ := hpostrep.congr fun i hi => hframe i (by simp [hi])
  have hlevel : LevelRep st' d (st idx).price ⟨idx, idx, 1, (st idx).remainingQty⟩ [idx] := by
    have hone : LevelRep st' d (st' idx).price ⟨idx, idx, 1, (st' idx).remainingQty⟩ [idx] :=
      LevelRep.singleton hne (by rw [hself]) (by rw [hself]) (by rw [hself]; exact hs)
    rw [hself] at hone
    exact hone
  refine ⟨entrySlots st pre, entrySlots st post, ⟨?_, ?_, ?_, ?_, ?_, fun i _ hi => hother i hi,
    fun i => ?_⟩⟩
  · rw [hent, entrySlots_append]
  · intro i hi
    obtain ⟨-, e, he, hp, -⟩ := hprerep.order_of_mem hi
    rw [hp]
    exact asymm_of d.Better (hlt e he)
  · intro i hi
    obtain ⟨-, e, he, hp, -⟩ := hpostrep.order_of_mem hi
    rw [hp]
    exact hgt e he
  · rw [hins]
    exact append_iff.mpr ⟨hpre, cons_iff.mpr ⟨hlevel.slots_eq.symm ▸ hlevel, hpost⟩⟩
  · rw [hins, entrySlots_append, entrySlots_cons, hspre, hspost, hlevel.slots_eq]
    simp
  · by_cases hi : i = idx
    · subst hi
      exact ⟨_, _, hself⟩
    · exact ⟨_, _, hother i hi⟩

/-- A new slot enters a side at the tail of the level of its price. -/
theorem linkTail (h : EntriesRep st d m.entries) (hnd : (entrySlots st m.entries).Nodup)
    {idx : UInt32} {lvl : PriceLevel} (hl : m.find? (st idx).price = some lvl)
    (hnew : idx ∉ entrySlots st m.entries) (hne : idx ≠ uint32Max)
    (hs : (st idx).side.RestsOn d) (hlen : (entrySlots st m.entries).length + 1 < 2 ^ 32) :
    ∃ l r, Linked st (LevelRep.linkedBehind st lvl.tailIdx idx) m
      (m.insert (st idx).price
        ⟨lvl.headIdx, idx, lvl.count + 1, lvl.totalQty + (st idx).remainingQty⟩) idx l r := by
  obtain ⟨pre, post, hent, hlt, hgt, hins, -⟩ := SortedMap.entries_of_find?_eq_some hl
  rw [hent] at h hnd hnew hlen
  have hlevel : LevelRep st d (st idx).price lvl (lvl.slots st) :=
    (cons_iff.mp (append_iff.mp h).2).1
  have hnewl : idx ∉ lvl.slots st := fun hi => hnew (by simp [hi])
  have htail := hlevel.list.tail_mem hlevel.nonempty
  have hti : lvl.tailIdx ≠ idx := fun e => hnewl (e ▸ htail)
  have happ := LevelRep.linkedBehind_apply st hti
  have hframe : ∀ i, i ∉ lvl.slots st → i ≠ idx →
      LevelRep.linkedBehind st lvl.tailIdx idx i = st i := by
    intro i hil hi
    have hit : i ≠ lvl.tailIdx := fun e => hil (e ▸ htail)
    rw [happ]
    simp [hi, hit]
  obtain ⟨⟨hpre, hspre⟩, hpost, hspost⟩ :=
    h.around (LevelRep.linkedBehind st lvl.tailIdx idx) hnd fun i hout hi => by
      rw [hframe i hout fun e => hnew (e ▸ hi)]
  have hlen' : (lvl.slots st).length + 1 < 2 ^ 32 := by
    simp only [entrySlots_append, entrySlots_cons, List.length_append] at hlen
    omega
  have hlevel' := hlevel.snoc hne hnewl hs rfl hlen'
  refine ⟨entrySlots st pre ++ lvl.slots st, entrySlots st post, ⟨?_, ?_, ?_, ?_, ?_, ?_,
    fun i => ⟨_, _, happ i⟩⟩⟩
  · rw [hent, entrySlots_append, entrySlots_cons]
    simp
  · intro i hi
    rcases List.mem_append.mp hi with hi | hi
    · obtain ⟨-, e, he, hp, -⟩ := (append_iff.mp h).1.order_of_mem hi
      rw [hp]
      exact asymm_of d.Better (hlt e he)
    · rw [(hlevel.orders i hi).2]
      exact irrefl_of d.Better _
  · intro i hi
    obtain ⟨-, e, he, hp, -⟩ := (cons_iff.mp (append_iff.mp h).2).2.order_of_mem hi
    rw [hp]
    exact hgt e he
  · rw [hins]
    exact append_iff.mpr ⟨hpre, cons_iff.mpr ⟨hlevel'.slots_eq.symm ▸ hlevel', hpost⟩⟩
  · rw [hins, entrySlots_append, entrySlots_cons, hspre, hspost, hlevel'.slots_eq]
    simp
  · intro i hout hi
    rw [hent] at hout
    exact hframe i (fun hil => hout (by simp [hil])) hi

/-- The quantity of one slot goes down. -/
theorem reduce (h : EntriesRep st d m.entries) (hnd : (entrySlots st m.entries).Nodup)
    {idx amount : UInt32} {lvl : PriceLevel} (hl : m.find? (st idx).price = some lvl)
    (hi : idx ∈ lvl.slots st) (hother : ∀ i, i ≠ idx → st' i = st i)
    (hidx : (st' idx).bookPart
      = { st idx with remainingQty := (st idx).remainingQty - amount }.bookPart) :
    EntriesRep st' d (m.insert (st idx).price
        { lvl with totalQty := lvl.totalQty - amount }).entries ∧
      entrySlots st' (m.insert (st idx).price
        { lvl with totalQty := lvl.totalQty - amount }).entries
        = entrySlots st m.entries := by
  obtain ⟨pre, post, hent, -, -, hins, -⟩ := SortedMap.entries_of_find?_eq_some hl
  rw [hent] at h hnd
  have hlevel : LevelRep st d (st idx).price lvl (lvl.slots st) :=
    (cons_iff.mp (append_iff.mp h).2).1
  have hlevel' := hlevel.reduce hi hother hidx
  obtain ⟨⟨hpre, hspre⟩, hpost, hspost⟩ := h.around st' hnd fun i hout _ => by
    rw [hother i fun e => hout (e ▸ hi)]
  constructor
  · rw [hins]
    exact append_iff.mpr ⟨hpre, cons_iff.mpr ⟨hlevel'.slots_eq.symm ▸ hlevel', hpost⟩⟩
  · rw [hins, hent]
    simp only [entrySlots_append, entrySlots_cons, hspre, hspost, hlevel'.slots_eq]

end EntriesRep

end NebulaX
