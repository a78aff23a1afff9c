import NebulaX.Proofs.MapThreads

/-!
# `NebulaX.Proofs.MapRuns`: runs of the order index under several threads

Every step of a thread keeps `MapThreads.Inv`. A step of `insert`, `find` or `erase` does one of few
things to the index: nothing, a load of the free stack, a store to the node the thread owns, an
exchange of the free stack, and for a call its one effect, which is a link, an unlink or a section
under the lock. There is a lemma for each of them, and the places of the calls are sorted under
them.

`MapThreads.finds_last_inserted` is the result.
-/

set_option autoImplicit false

namespace NebulaX

open NebulaX.Lib

namespace OrderMap

variable {k : UInt64} {v : UInt32}

theorem SameCall.of_insert {pc pc' : InsertPc}
    (hmode : (MapThread.insert k v pc').mode = (MapThread.insert k v pc).mode)
    (heff : (MapThread.insert k v pc').effect = (MapThread.insert k v pc).effect) :
    SameCall (.insert k v pc) (.insert k v pc') := by
  refine ⟨rfl, hmode, heff, Iff.rfl, ?_⟩
  rintro k v _ ⟨⟩
  exact ⟨pc, rfl⟩

theorem SameCall.of_erase {pc pc' : ErasePc}
    (hmode : (MapThread.erase k pc').mode = (MapThread.erase k pc).mode)
    (heff : (MapThread.erase k pc').effect = (MapThread.erase k pc).effect) :
    SameCall (.erase k pc) (.erase k pc') :=
  ⟨rfl, hmode, heff, Iff.rfl, nofun⟩

end OrderMap

namespace MapThreads

variable {τ : Type} [DecidableEq τ] {s s' : MapThreads τ}
variable {place : UInt32 → NodePlace τ} {lists : UInt32 → List UInt32} {free : List UInt32}
variable {h : List (MapAction τ × MapEvent τ)} {a : MapAction τ} {o : MapEvent τ}
variable {t t' : τ} {k k' : UInt64} {v idx : UInt32} {th th₀ : MapThread} {m m' : OrderMap}

/-- The invariant holds after a step, with the nodes at some places. -/
def Kept (h : List (MapAction τ × MapEvent τ)) (a : MapAction τ)
    (x : MapThreads τ × MapEvent τ) : Prop :=
  ∃ place lists free, Inv place lists free (h ++ [(a, x.2)]) x.1

/-- An access that changes no more than a counter, outside the loops on the free stack. -/
theorem Inv.passes (hi : Inv place lists free h s) (hth : s.threads t = th₀)
    (hkey : th₀.key? = some k) (hw : ¬ th₀.Reads) (hm : OrderMap.SameMap s.map m')
    (hc : OrderMap.SameCall th₀ th) (howns : th.owns = th₀.owns) (hfits : m'.Fits lists th)
    (hstack : th.stack? = none) :
    Kept h a ({ s with map := m' }.goto t th, .silent) := by
  refine ⟨place, lists, free, hi.goes hth hkey hw hm trivial (content_snoc h a _) hc howns hfits ?_⟩
  intro pc hpc
  rw [hstack] at hpc
  cases hpc

/-- A thread comes to a loop on the free stack, or back to its start. -/
theorem Inv.loads (hi : Inv place lists free h s) (hth : s.threads t = th₀)
    (hkey : th₀.key? = some k) (hw : ¬ th₀.Reads) (hc : OrderMap.SameCall th₀ th)
    (howns : th.owns = th₀.owns) (hfits : s.map.Fits lists th) {pc : StackPc}
    (hstack : th.stack? = some pc) (htracks : pc.Tracks s.map.freeHead s.map.link 0) :
    Kept h a ({ s with map := s.map }.goto t th, .loaded t) := by
  refine ⟨place, lists, free,
    hi.goes hth hkey hw (.refl _) rfl (content_snoc h a _) hc howns hfits ?_⟩
  intro pc' hpc
  cases hstack.symm.trans hpc
  rw [since_snoc]
  simpa using htracks

/-- A step that changes neither the nodes, nor the heads, nor the free stack: what the bucket of
the thread holds may change. -/
theorem Inv.converts (hi : Inv place lists free h s) (hth : s.threads t = th₀)
    (hkey : th₀.key? = some k) (hw : ¬ th₀.Reads)
    (hkey' : ∀ k', th.key? = some k' → k' = k ∧ ¬ th.Reads) (howns : th.owns = th₀.owns)
    (hnodes : m'.nodes = s.map.nodes) (hbuckets : m'.buckets = s.map.buckets)
    (hhead : m'.freeHead = s.map.freeHead) (hshift : m'.hashShift = s.map.hashShift)
    (hcap : m'.capacity = s.map.capacity)
    (hstate : ∀ b, b ≠ s.map.hash k → m'.state b = s.map.state b)
    (hoverflow : ∀ k', s.map.hash k' ≠ s.map.hash k →
      m'.overflow.find? k' = s.map.overflow.find? k')
    (ho : Calm t o) (hok : OrderMap.ThreadOk lists m' (since t (h ++ [(a, o)])) th)
    (hcontent : ∀ k', s.map.hash k' = s.map.hash k → (th.key? = some k' → th.effect = none) →
      m'.stored lists k' = content (h ++ [(a, o)]) k')
    (hother : ∀ k', k' ≠ k → content (h ++ [(a, o)]) k' = content h k')
    (hover : m'.state (s.map.hash k) ≠ .treeified → ∀ k', s.map.hash k' = s.map.hash k →
      m'.overflow.find? k' = none)
    (hconv : m'.state (s.map.hash k) = .converting → th.key? = some k) :
    Kept h a ({ s with map := m' }.goto t th, o) := by
  subst hth
  refine ⟨place, lists, free,
    hi.writes rfl hkey hw hkey' ?_ ?_ hshift ?_ ?_ hok hcontent hother hover hconv⟩
  · rw [owns_same rfl howns]
    exact hi.heap.same hnodes hbuckets hhead hshift hcap
  · intro b hb
    exact ⟨hshift, hstate b hb, by rw [hbuckets], rfl, fun x _ => by rw [hnodes],
      fun k' hk' => hoverflow k' (by rw [hk']; exact hb)⟩
  · intro t' x _ _
    rw [hnodes]
  · intro t' pc ht hpc
    have hlink : m'.link = s.map.link := by
      funext i
      rw [OrderMap.link, OrderMap.link, hnodes]
    rw [hhead, hlink]
    exact hi.tracks ho ht hpc

/-! ### The free stack -/

/-- A thread swings the head of the free stack and leaves the stack. -/
theorem Inv.swings (hi : Inv place lists free h s) (hth : s.threads t = th₀)
    (hkey : th₀.key? = some k) (hw : ¬ th₀.Reads) (hc : OrderMap.SameCall th₀ th)
    {place' : UInt32 → NodePlace τ} {free' : List UInt32}
    (hheap : { s.map with freeHead := s.map.freeHead.swing idx }.Heap place' lists free'
      (Function.update (fun t => (s.threads t).owns) t th.owns))
    (hfits : s.map.Fits lists th) (hstack : th.stack? = none) :
    Kept h a
      ({ s with map := { s.map with freeHead := s.map.freeHead.swing idx } }.goto t th,
        .swung t) := by
  refine ⟨place', lists, free',
    hi.shifts hth hkey hw hheap (fun _ => ?_) (fun _ _ _ _ => rfl) ?_ (content_snoc h a _) hc ?_ ?_⟩
  · exact ⟨rfl, rfl, rfl, rfl, fun _ _ => rfl, fun _ _ => rfl⟩
  · intro t' pc' _ hpc'
    rw [since_snoc]
    exact ((hi.threads t').tracks pc' hpc').swing idx
  · exact hfits.frame (fun _ _ => ⟨rfl, rfl, rfl, rfl, fun _ _ => rfl, fun _ _ => rfl⟩)
      fun _ _ => rfl
  · intro pc' hpc'
    rw [hstack] at hpc'
    cases hpc'

/-- A thread takes a node. -/
theorem Inv.pops (hi : Inv place lists free h s) (hth : s.threads t = th₀)
    (hkey : th₀.key? = some k) (hw : ¬ th₀.Reads) (hc : OrderMap.SameCall th₀ th)
    (hnone : th₀.owns = none) {pc : StackPc} (hstack : th₀.stack? = some pc)
    (htime : since t h < 2 ^ 32) {head : TaggedIdx}
    (hm : pc.Moves s.map.freeHead s.map.link (.pops idx head)) (howns : th.owns = some idx)
    (hfits : s.map.Fits lists th) (hstack' : th.stack? = none) :
    Kept h a ({ s with map := { s.map with freeHead := head } }.goto t th, .swung t) := by
  subst hth
  have htracks := (hi.threads t).tracks pc hstack
  obtain ⟨-, next, rest, rfl, rfl, hrest⟩ := htracks.pops htime hi.heap.freeChain hm
  exact hi.swings rfl hkey hw hc (howns ▸ hi.heap.pop hrest hnone) hfits hstack'

/-- A thread gives its node back. -/
theorem Inv.pushes (hi : Inv place lists free h s) (hth : s.threads t = th₀)
    (hkey : th₀.key? = some k) (hw : ¬ th₀.Reads) (hc : OrderMap.SameCall th₀ th)
    {pc : StackPc} (hstack : th₀.stack? = some pc) {head : TaggedIdx}
    (hm : pc.Moves s.map.freeHead s.map.link (.pushes idx head)) (hown : th₀.owns = pc.owns)
    (howns : th.owns = none) (hfits : s.map.Fits lists th) (hstack' : th.stack? = none) :
    Kept h a ({ s with map := { s.map with freeHead := head } }.goto t th, .swung t) := by
  subst hth
  have htracks := (hi.threads t).tracks pc hstack
  have hidx : (s.threads t).owns = some idx := by
    obtain ⟨rfl, -⟩ := hm
    exact hown
  have hne : idx ≠ uint32Max :=
    hi.heap.ne_nil (hi.heap.placed.inside_of (k := .thread t) hidx)
  obtain ⟨-, rfl, hchain⟩ := htracks.pushes hi.heap.freeChain hm hne
  exact hi.swings rfl hkey hw hc (howns ▸ hi.heap.push hidx hchain) hfits hstack'

/-! ### The section under the lock -/

/-- A call in a converted bucket changes `overflow_` at its key and returns. -/
theorem Inv.under_lock (hi : Inv place lists free h s) (hth : s.threads t = th₀)
    (hkey : th₀.key? = some k) (hw : ¬ th₀.Reads) (howns : th₀.owns = none)
    (hmode : th₀.mode = .treeified) {ov : SortedMap UInt64 UInt32 (fun a b => a < b)}
    {size : UInt64} {r : Option UInt32}
    (hfind : ∀ k', ov.find? k' = if k' = k then r else s.map.overflow.find? k') (ho : Calm t o)
    (hcontent : ∀ k', content (h ++ [(a, o)]) k' = if k' = k then r else content h k') :
    Kept h a ({ s with map := { s.map with overflow := ov, size := size } }.goto t .idle, o) := by
  have hst : s.map.state (s.map.hash k) = .treeified := by
    have hok := hi.threads t
    rw [hth] at hok
    rw [hok.state k hkey, hmode]
  refine hi.converts hth hkey hw nofun howns.symm rfl rfl rfl rfl rfl (fun _ _ => rfl) ?_ ho .idle
    ?_ ?_ ?_ ?_
  · intro k' hk'
    rw [hfind, if_neg fun e => hk' (by rw [e])]
  · intro k' hk' _
    have hst' : s.map.state (s.map.hash k') = .treeified := by rw [hk', hst]
    rw [OrderMap.stored_treeified (m := { s.map with overflow := ov, size := size }) hst', hfind,
      hcontent]
    split
    · rfl
    · rename_i heq
      rw [← show s.map.stored lists k' = _ from OrderMap.stored_treeified hst']
      exact hi.stored hth hkey hw hk' fun e => absurd e heq
  · intro k' hk'
    rw [hcontent, if_neg hk']
  · intro hne
    exact absurd hst hne
  · intro hconv
    rw [show s.map.state (s.map.hash k) = _ from hconv] at hst
    cases hst

/-! ### `insert` -/

/-- `insert` stores to `overflow_`. -/
theorem Inv.insert_overflow (hi : Inv place lists free h s)
    (hth : s.threads t = .insert k v .overflow) :
    Kept h a ({ s with map := s.map.insertOverflow k v }.goto t .idle, .inserted k v true) := by
  refine hi.under_lock hth rfl id rfl rfl (fun k' => SortedMap.find?_insert _ _ _ _) trivial ?_
  intro k'
  simp [content_snoc, eq_comm]

/-- The index after `treeify` has claimed a bucket. -/
def claimed (m : OrderMap) (b : UInt32) : OrderMap :=
  { m with state := Function.update m.state b .converting }

/-- `treeify` claims the bucket. -/
theorem Inv.insert_claims (hi : Inv place lists free h s) {linked : Bool}
    (hth : s.threads t = .insert k v (.treeify linked)) :
    Kept h a ({ s with map := claimed s.map (s.map.hash k) }.goto t (.insert k v (.copy linked)),
      .silent) := by
  have hok := hi.threads t
  rw [hth] at hok
  have hst : s.map.state (s.map.hash k) = .chain := hok.state k rfl
  have hself : (claimed s.map (s.map.hash k)).state (s.map.hash k) = .converting :=
    Function.update_self _ _ _
  have hstored : ∀ k', s.map.hash k' = s.map.hash k →
      (claimed s.map (s.map.hash k)).stored lists k' = s.map.stored lists k' := by
    intro k' hk'
    have hne : (claimed s.map (s.map.hash k)).state (s.map.hash k') ≠ .treeified := by
      rw [hk', hself]
      nofun
    have hne' : s.map.state (s.map.hash k') ≠ .treeified := by
      rw [hk', hst]
      nofun
    exact (OrderMap.stored_chain hne).trans (OrderMap.stored_chain hne').symm
  refine hi.converts hth rfl id ?_ rfl rfl rfl rfl rfl rfl ?_ (fun _ _ => rfl) trivial ?_ ?_ ?_ ?_
    fun _ => rfl
  · rintro k' ⟨⟩
    exact ⟨rfl, id⟩
  · intro b hb
    exact Function.update_of_ne hb _ _
  · refine ⟨?_, trivial, ?_, ?_, nofun⟩
    · rintro k' ⟨⟩
      exact hself
    · rintro k' v' pc' ⟨⟩ heff
      rw [hstored k rfl]
      cases linked with
      | false => exact hok.absent k v _ rfl rfl
      | true => cases heff
    · rintro k' r ⟨⟩ heff
      rw [hstored k rfl]
      cases linked with
      | false => cases heff
      | true => exact hok.effect k r rfl heff
  · intro k' hk' heff
    rw [hstored k' hk', content_snoc]
    refine hi.stored hth rfl id hk' fun e => ?_
    have := heff (by rw [e]; rfl)
    cases linked with
    | false => rfl
    | true => cases this
  · intro k' _
    exact content_snoc h a _ k'
  · intro _ k' hk'
    exact hi.overflow k' (by rw [hk', hst]; nofun)

/-- The section of `treeify` copies the chain. -/
theorem Inv.copyChain (hi : Inv place lists free h s) (b : UInt32) :
    s.map.copyChain b = some (s.map.converted b (lists b)) := by
  have hlen : (lists b).length < s.map.capacity + 1 :=
    Nat.lt_succ_of_le (length_le_of_nodup (hi.heap.chains b).nodup fun x hx =>
      hi.heap.placed.inside_of (k := .bucket b) hx)
  rw [OrderMap.copyChain, OrderMap.treeifyLoop_eq (hi.heap.chains b) hlen]
  rfl

/-- What `overflow_` holds then. -/
theorem Inv.find?_converted (hi : Inv place lists free h s)
    (hst : s.map.state (s.map.hash k) = .converting) (k' : UInt64) :
    (s.map.converted (s.map.hash k) (lists (s.map.hash k))).overflow.find? k'
      = if s.map.hash k' = s.map.hash k then s.map.stored lists k'
        else s.map.overflow.find? k' := by
  have hfind : (s.map.converted (s.map.hash k) (lists (s.map.hash k))).overflow.find? k' = _ :=
    OrderMap.find?_copyNodes (hi.heap.keys (s.map.hash k))
  rw [hfind]
  split
  · rename_i hk'
    have hne : s.map.state (s.map.hash k') ≠ .treeified := by
      rw [hk', hst]
      decide
    rw [OrderMap.stored_chain hne, hi.overflow k' hne, hk', Option.or_none]
  · rename_i hk'
    rw [OrderMap.nodeOf_eq_none fun y hy e => hk' ?_]
    · rfl
    · rw [← e]
      exact (hi.heap.bucket _ y hy).2

/-- What is stored after the section. -/
theorem Inv.stored_converted (hi : Inv place lists free h s)
    (hst : s.map.state (s.map.hash k) = .converting) (hk' : s.map.hash k' = s.map.hash k) :
    (s.map.converted (s.map.hash k) (lists (s.map.hash k))).stored lists k'
      = s.map.stored lists k' := by
  have hself : (s.map.converted (s.map.hash k) (lists (s.map.hash k))).state (s.map.hash k')
      = .treeified := by
    rw [hk']
    exact Function.update_self _ _ _
  refine (OrderMap.stored_treeified hself).trans ?_
  rw [hi.find?_converted hst, if_pos hk']

/-- `insert` comes to the end of `treeify`. `th` is where it is then. -/
theorem Inv.insert_converts (hi : Inv place lists free h s) {linked : Bool}
    (hth : s.threads t = .insert k v (.copy linked)) (hkey : ∀ k', th.key? = some k' →
      k' = k ∧ ¬ th.Reads) (howns : th.owns = none) (ho : Calm t o)
    (hok : OrderMap.ThreadOk lists (s.map.converted (s.map.hash k) (lists (s.map.hash k)))
      (since t (h ++ [(a, o)])) th)
    (hcontent : content (h ++ [(a, o)]) k = s.map.stored lists k)
    (hother : ∀ k', k' ≠ k → content (h ++ [(a, o)]) k' = content h k') :
    Kept h a ({ s with map := s.map.converted (s.map.hash k) (lists (s.map.hash k)) }.goto t th,
      o) := by
  have hst : s.map.state (s.map.hash k) = .converting := by
    have hok := hi.threads t
    rw [hth] at hok
    exact hok.state k rfl
  have hself : (s.map.converted (s.map.hash k) (lists (s.map.hash k))).state (s.map.hash k)
      = .treeified := Function.update_self _ _ _
  refine hi.converts hth rfl id hkey howns rfl rfl rfl rfl rfl ?_ ?_ ho hok ?_ hother ?_ ?_
  · intro b hb
    exact Function.update_of_ne hb _ _
  · intro k' hk'
    rw [hi.find?_converted hst, if_neg hk']
  · intro k' hk' _
    rw [hi.stored_converted hst hk']
    by_cases heq : k' = k
    · rw [heq, hcontent]
    · rw [hother k' heq]
      exact hi.stored hth rfl id hk' fun e => absurd e heq
  · intro hne
    exact absurd hself hne
  · intro hconv
    rw [hself] at hconv
    cases hconv

/-- The step of `insert` that copies the chain. -/
theorem Inv.insert_copies (hi : Inv place lists free h s) {linked : Bool}
    (hth : s.threads t = .insert k v (.copy linked)) :
    Kept h a (s.after t (s.map.converted (s.map.hash k) (lists (s.map.hash k))) (.insert k v)
      (.inserted k v) (OrderMap.afterTreeify linked)) := by
  have hok := hi.threads t
  rw [hth] at hok
  have hst : s.map.state (s.map.hash k) = .converting := hok.state k rfl
  cases linked with
  | false =>
      have hnone : s.map.stored lists k = none := hok.absent k v _ rfl rfl
      refine hi.insert_converts hth ?_ rfl trivial ⟨?_, trivial, ?_, nofun, nofun⟩ ?_
        fun k' _ => content_snoc h a _ k'
      · rintro k' ⟨⟩
        exact ⟨rfl, id⟩
      · rintro k' ⟨⟩
        exact Function.update_self _ _ _
      · rintro k' v' pc' ⟨⟩ -
        rw [hi.stored_converted hst rfl]
        exact hnone
      · rw [content_snoc]
        exact (hi.stored hth rfl id rfl fun _ => rfl).symm
  | true =>
      refine hi.insert_converts hth nofun rfl trivial .idle ?_ ?_
      · rw [content_snoc, hok.effect k (some v) rfl rfl]
        exact if_pos rfl
      · intro k' hk'
        rw [content_snoc]
        exact if_neg (Ne.symm hk')

/-- `insert` finds no free node. -/
theorem Inv.insert_fails (hi : Inv place lists free h s) {pc : InsertPc}
    (hth : s.threads t = .insert k v pc) (hmode : (MapThread.insert k v pc).mode = .chain)
    (howns : pc.owns = none) (heff : (MapThread.insert k v pc).effect = none) :
    Kept h a ({ s with map := s.map }.goto t .idle, .inserted k v false) := by
  have hok := hi.threads t
  rw [hth] at hok
  refine ⟨place, lists, free, hi.returns hth rfl id (.refl _) trivial howns ?_
    (fun k' _ => content_snoc h a _ k') ?_⟩
  · rw [content_snoc]
    exact hi.stored hth rfl id rfl fun _ => heff
  · rw [hok.state k rfl, hmode]
    nofun

/-- `insert` links its node. -/
theorem Inv.insert_links (hi : Inv place lists free h s) {head : UInt32}
    (hth : s.threads t = .insert k v (.link idx head)) :
    Kept h a ({ s with map := { s.map with
      buckets := Function.update s.map.buckets (s.map.hash k) idx } }.goto t
        (.insert k v .addLen), .silent) := by
  have hok := hi.threads t
  rw [hth] at hok
  have hst : s.map.state (s.map.hash k) = .chain := hok.state k rfl
  have hne : s.map.state (s.map.hash k) ≠ .treeified := by
    rw [hst]
    decide
  obtain ⟨⟨hid, horder, hbucket⟩, hhead, hlink⟩ := hok.fits
  have hown : (s.threads t).owns = some idx := by
    rw [hth]
    rfl
  have habsent : ∀ x ∈ lists (s.map.hash k), (s.map.nodes x).orderId ≠ k := by
    have hnone : s.map.stored lists k = none := hok.absent k v _ rfl rfl
    rw [OrderMap.stored_chain hne, Option.map_eq_none_iff, OrderMap.nodeOf,
      List.find?_eq_none] at hnone
    intro x hx
    simpa using hnone x hx
  -- the node is the first of its chain now
  have hstored : ∀ k', s.map.hash k' = s.map.hash k →
      ({ s.map with buckets := Function.update s.map.buckets (s.map.hash k) idx }
        : OrderMap).stored (Function.update lists (s.map.hash k) (idx :: lists (s.map.hash k))) k'
      = if k' = k then some v else s.map.stored lists k' := by
    intro k' hk'
    have hne' : s.map.state (s.map.hash k') ≠ .treeified := by
      rw [hk']
      exact hne
    refine (OrderMap.stored_chain hne').trans ?_
    change (s.map.nodeOf k' (Function.update lists (s.map.hash k) (idx :: lists (s.map.hash k))
      (s.map.hash k'))).map (fun x => (s.map.nodes x).order) = _
    rw [OrderMap.stored_chain hne', hk', Function.update_self]
    by_cases heq : k' = k
    · have hfirst : s.map.nodeOf k' (idx :: lists (s.map.hash k)) = some idx :=
        List.find?_cons_of_pos (by simpa [heq] using hid)
      rw [if_pos heq, hfirst, Option.map_some, horder]
    · have hrest : s.map.nodeOf k' (idx :: lists (s.map.hash k))
          = s.map.nodeOf k' (lists (s.map.hash k)) :=
        List.find?_cons_of_neg (by simpa [hid] using Ne.symm heq)
      rw [if_neg heq, hrest]
  refine ⟨_, _, free, hi.writes hth rfl id ?_
    (hi.heap.link (t := t) hown (hlink.trans hhead.symm) hbucket (by rw [hid])
      (by rw [hid]; exact habsent)) ?_ rfl (fun _ _ _ _ => rfl) ?_ ?_ ?_ ?_ ?_ ?_⟩
  · rintro k' ⟨⟩
    exact ⟨rfl, id⟩
  · intro b hb
    exact ⟨rfl, rfl, Function.update_of_ne hb _ _, Function.update_of_ne hb _ _, fun _ _ => rfl,
      fun _ _ => rfl⟩
  · intro t' pc ht hpc
    exact hi.tracks (o := .silent) trivial ht hpc
  · refine ⟨?_, trivial, by rintro _ _ _ ⟨⟩ ⟨⟩, ?_, by rintro _ ⟨⟩⟩
    · rintro k' ⟨⟩
      exact hst
    · rintro k' r ⟨⟩ ⟨⟩
      rw [hstored k rfl, if_pos rfl]
  · intro k' hk' heff
    have heq : k' ≠ k := by
      rintro rfl
      cases heff rfl
    rw [hstored k' hk', if_neg heq, content_snoc]
    exact hi.stored hth rfl id hk' fun e => absurd e heq
  · intro k' _
    exact content_snoc h a _ k'
  · intro _ k' hk'
    exact hi.overflow k' (by rw [hk']; exact hne)
  · intro hconv
    rw [show s.map.state (s.map.hash k) = _ from hconv] at hst
    cases hst

/-- A step in the loop of `allocNode`. -/
theorem Inv.insert_allocates (hi : Inv place lists free h s) {pc : StackPc} {mv : StackMove}
    (hth : s.threads t = .insert k v (.allocLoop pc)) (htime : since t h < 2 ^ 32)
    (hm : pc.Moves s.map.freeHead s.map.link mv) :
    Kept h a (s.after t (s.map.allocMove mv).1 (.insert k v) (.inserted k v)
      (s.map.allocMove mv).2) := by
  have hok := hi.threads t
  rw [hth] at hok
  have hnone : pc.owns = none := hok.fits
  have htracks := hok.tracks pc rfl
  cases mv with
  | reads pc' =>
      obtain ⟨htracks', howns⟩ := htracks.reads hm
      refine ⟨place, lists, free, hi.goes hth rfl id (.refl _) trivial (content_snoc h a _)
        (.of_insert rfl rfl) howns (howns.trans hnone) ?_⟩
      rintro pc' ⟨⟩
      rw [since_snoc]
      exact htracks'
  | links idx next pc' =>
      obtain ⟨fh, rfl, -⟩ := hm
      cases hnone
  | retries pc' =>
      obtain ⟨htracks', howns⟩ := StackPc.Moves.retries hm
      exact hi.loads hth rfl id (.of_insert rfl rfl) howns (howns.trans hnone) rfl htracks'
  | findsNone => exact hi.insert_fails hth rfl hnone rfl
  | pops idx head =>
      have hc : OrderMap.SameCall (.insert k v (.allocLoop pc)) (.insert k v (.storeId idx)) :=
        .of_insert rfl rfl
      exact hi.pops hth rfl id hc hnone rfl htime hm rfl trivial rfl
  | pushes idx head =>
      obtain ⟨rfl, -⟩ := hm
      cases hnone

/-- A step of `insert`. -/
theorem Inv.insert (hi : Inv place lists free h s) {pc : InsertPc} {spurious : Bool}
    {n : MapNext InsertPc Bool} (hth : s.threads t = .insert k v pc)
    (htime : ∀ pc, (s.threads t).stack? = some pc → since t h < 2 ^ 32)
    (hstep : s.map.insertStep k v spurious pc = some (m', n)) :
    Kept h a (s.after t m' (.insert k v) (.inserted k v) n) := by
  have hok := hi.threads t
  rw [hth] at hok
  have hst := hok.state k rfl
  cases pc with
  | overflow =>
      cases hstep
      exact hi.insert_overflow hth
  | len | full =>
      cases hstep
      split
      · exact hi.passes hth rfl id (.refl _) (.of_insert rfl rfl) rfl trivial rfl
      · exact hi.passes hth rfl id (.refl _) (.of_insert rfl rfl) rfl trivial rfl
  | treeify linked =>
      -- nobody else converts the bucket, so the exchange succeeds
      have hchain : s.map.state (s.map.hash k) = .chain := hst
      rw [OrderMap.insertStep, if_pos hchain] at hstep
      cases hstep
      exact hi.insert_claims hth
  | copy linked =>
      rw [OrderMap.insertStep, hi.copyChain] at hstep
      cases hstep
      exact hi.insert_copies hth
  | alloc =>
      rw [OrderMap.insertStep] at hstep
      split at hstep
      · cases hstep
        exact hi.insert_fails hth rfl rfl rfl
      · rename_i pc hpop
        cases hstep
        obtain ⟨htracks, hnone⟩ := StackPc.tracks_pop? s.map.link hpop
        exact hi.loads hth rfl id (.of_insert rfl rfl) hnone hnone rfl htracks
  | allocLoop pc =>
      have hm := StackPc.moves_move s.map.freeHead s.map.link pc spurious
      have hkept := hi.insert_allocates (a := a) hth (htime pc (by rw [hth]; rfl)) hm
      rw [← Prod.mk.inj (Option.some.inj hstep) |>.1, ← Prod.mk.inj (Option.some.inj hstep) |>.2]
      exact hkept
  | storeId idx =>
      cases hstep
      refine ⟨place, lists, free, hi.stores hth rfl id rfl _ (.of_insert rfl rfl) rfl ?_
        (by rintro _ ⟨⟩)⟩
      change ((s.map.modifyNode idx _).nodes idx).orderId = k
      simp [OrderMap.modifyNode]
  | storeOrder idx =>
      cases hstep
      refine ⟨place, lists, free, hi.stores hth rfl id rfl _ (.of_insert rfl rfl) rfl ?_
        (by rintro _ ⟨⟩)⟩
      have hid : (s.map.nodes idx).orderId = k := hok.fits
      simp [OrderMap.Fits, OrderMap.InsertFits, OrderMap.modifyNode, hid]
  | storeBucket idx =>
      cases hstep
      refine ⟨place, lists, free, hi.stores hth rfl id rfl _ (.of_insert rfl rfl) rfl ?_
        (by rintro _ ⟨⟩)⟩
      obtain ⟨hid, horder⟩ : (s.map.nodes idx).orderId = k ∧ (s.map.nodes idx).order = v := hok.fits
      simp only [OrderMap.Fits, OrderMap.InsertFits, OrderMap.Filled, OrderMap.modifyNode,
        Function.update_self]
      exact ⟨hid, horder, rfl⟩
  | recheck idx =>
      cases hstep
      have hchain : s.map.state (s.map.hash k) = .chain := hst
      rw [if_neg (not_not.mpr hchain)]
      exact hi.passes hth rfl id (.refl _) (.of_insert rfl rfl) rfl hok.fits rfl
  | head idx =>
      cases hstep
      exact hi.passes hth rfl id (.refl _) (.of_insert rfl rfl) rfl ⟨hok.fits, rfl⟩ rfl
  | storeNext idx head =>
      cases hstep
      refine ⟨place, lists, free, hi.stores hth rfl id rfl _ (.of_insert rfl rfl) rfl ?_
        (by rintro _ ⟨⟩)⟩
      obtain ⟨⟨hid, horder, hbucket⟩, hhead⟩ : s.map.Filled k v idx ∧ _ := hok.fits
      simp only [OrderMap.Fits, OrderMap.InsertFits, OrderMap.Filled, OrderMap.modifyNode,
        OrderMap.link, Function.update_self]
      exact ⟨⟨hid, horder, hbucket⟩, hhead, trivial⟩
  | link idx head =>
      rw [OrderMap.insertStep] at hstep
      split at hstep
      · cases hstep
        exact hi.insert_links hth
      · cases hstep
        exact hi.passes hth rfl id (.refl _) (.of_insert rfl rfl) rfl ⟨hok.fits.1, rfl⟩ rfl
  | retry idx head =>
      cases hstep
      have hchain : s.map.state (s.map.hash k) = .chain := hst
      rw [if_neg (not_not.mpr hchain)]
      exact hi.passes hth rfl id (.refl _) (.of_insert rfl rfl) rfl hok.fits rfl
  | free idx => exact absurd hok.fits id
  | freeLoop pc => exact absurd hok.fits id
  | addLen | addSize =>
      cases hstep
      exact hi.passes hth rfl id ⟨rfl, rfl, rfl, rfl, rfl, rfl, rfl⟩ (.of_insert rfl rfl) rfl
        trivial
        rfl
  | lenAfter =>
      cases hstep
      split
      · exact hi.passes hth rfl id (.refl _) (.of_insert rfl rfl) rfl trivial rfl
      · refine ⟨place, lists, free, hi.returns hth rfl id (.refl _)
          trivial rfl ?_ ?_ (by rw [hst]; rintro ⟨⟩)⟩
        · rw [content_snoc, hok.effect k (some v) rfl rfl]
          exact (if_pos rfl).symm
        · intro k' hk'
          rw [content_snoc]
          exact if_neg (Ne.symm hk')

/-! ### `erase` -/

/-- `erase` in a bucket that is converted. -/
theorem Inv.erase_overflow (hi : Inv place lists free h s)
    (hth : s.threads t = .erase k .overflow) :
    Kept h a ({ s with map := s.map.eraseOverflow k }.goto t .idle, .erased k) := by
  obtain ⟨ov, size, heq, hfind⟩ : ∃ ov size, s.map.eraseOverflow k
      = { s.map with overflow := ov, size := size } ∧
        ∀ k', ov.find? k' = if k' = k then none else s.map.overflow.find? k' := by
    rw [OrderMap.eraseOverflow]
    split
    · exact ⟨_, _, rfl, SortedMap.find?_erase _ _⟩
    · rename_i hnone
      refine ⟨_, _, rfl, fun k' => ?_⟩
      split
      · rename_i heq
        rw [heq, hnone]
      · rfl
  rw [heq]
  refine hi.under_lock hth rfl id rfl rfl hfind trivial fun k' => ?_
  simp [content_snoc, eq_comm]

/-- `erase` returns. -/
theorem Inv.erase_returns (hi : Inv place lists free h s) {pc : ErasePc}
    (hth : s.threads t = .erase k pc) (hmode : (MapThread.erase k pc).mode = .chain)
    (howns : pc.owns = none) (hm : OrderMap.SameMap s.map m')
    (hnone : s.map.stored lists k = none) :
    Kept h a ({ s with map := m' }.goto t .idle, .erased k) := by
  have hok := hi.threads t
  rw [hth] at hok
  refine ⟨place, lists, free, hi.returns hth rfl id hm trivial howns ?_ ?_ ?_⟩
  · rw [content_snoc, hnone]
    exact (if_pos rfl).symm
  · intro k' hk'
    rw [content_snoc]
    exact if_neg (Ne.symm hk')
  · rw [hok.state k rfl, hmode]
    nofun

/-- `erase` takes the node of its key out of the chain. One link of the chain changes at most. -/
theorem Inv.erase_unlinks (hi : Inv place lists free h s) {pc : ErasePc}
    (hth : s.threads t = .erase k pc) (hmode : (MapThread.erase k pc).mode = .chain)
    (howns : pc.owns = none) {l r : List UInt32} {x i : UInt32}
    (hl : lists (s.map.hash k) = l ++ x :: r) (hid : (s.map.nodes x).orderId = k)
    {nodes : UInt32 → Node} {buckets : UInt32 → UInt32}
    (hu : s.map.Unlinks (s.map.hash k) l x r nodes buckets) (hi' : i ∈ lists (s.map.hash k))
    (hnext : ∀ j, j ≠ i → (nodes j).nextIdx = s.map.link j) :
    Kept h a ({ s with map := s.map.unlinked nodes buckets }.goto t (.erase k (.free x)),
      .silent) := by
  have hok := hi.threads t
  rw [hth] at hok
  have hst : s.map.state (s.map.hash k) = .chain := (hok.state k rfl).trans hmode
  have hne : s.map.state (s.map.hash k) ≠ .treeified := by
    rw [hst]
    decide
  -- what does not belong to the chain is as before
  have hnode : ∀ y, y ∉ lists (s.map.hash k) → nodes y = s.map.nodes y := by
    intro y hy
    rw [hl] at hy
    have h₁ := hu.orderId y
    have h₂ := hu.order y
    have h₃ := hu.bucket y
    have h₄ := hu.next y hy
    cases hn : nodes y
    cases hm : s.map.nodes y
    simp_all [OrderMap.next]
  -- no other node of the chain has the key
  have hkeys : ∀ y ∈ l ++ r, (s.map.nodes y).orderId ≠ k := by
    have hkeys := hi.heap.keys (s.map.hash k)
    rw [hl, List.map_append, List.map_cons, List.nodup_middle, List.nodup_cons, ← List.map_append,
      hid] at hkeys
    intro y hy e
    exact hkeys.1 (List.mem_map.mpr ⟨y, hy, e⟩)
  have hnodeOf : ∀ k', k' ≠ k → s.map.nodeOf k' (l ++ r) = s.map.nodeOf k' (l ++ x :: r) := by
    intro k' hk'
    have hx : s.map.nodeOf k' (x :: r) = s.map.nodeOf k' r :=
      List.find?_cons_of_neg (by simpa [hid] using Ne.symm hk')
    rw [OrderMap.nodeOf_append, OrderMap.nodeOf_append, hx]
  have hstored : ∀ k', s.map.hash k' = s.map.hash k →
      (s.map.unlinked nodes buckets).stored (Function.update lists (s.map.hash k) (l ++ r)) k'
      = if k' = k then none else s.map.stored lists k' := by
    intro k' hk'
    have hne' : s.map.state (s.map.hash k') ≠ .treeified := by
      rw [hk']
      exact hne
    have hchain : (s.map.unlinked nodes buckets).stored
        (Function.update lists (s.map.hash k) (l ++ r)) k' = _ := OrderMap.stored_chain hne'
    rw [hchain]
    change ((s.map.unlinked nodes buckets).nodeOf k' (Function.update lists (s.map.hash k) (l ++ r)
      (s.map.hash k'))).map (fun x => (nodes x).order) = _
    rw [OrderMap.nodeOf_congr (m := s.map) fun y _ => hu.orderId y, hk', Function.update_self,
      OrderMap.stored_chain hne', hk', hl]
    simp only [hu.order]
    by_cases heq : k' = k
    · rw [if_pos heq, heq, OrderMap.nodeOf_eq_none hkeys]
      rfl
    · rw [if_neg heq, hnodeOf k' heq]
  refine ⟨_, _, free, hi.writes hth rfl id ?_
    (hi.heap.unlink (t := t) hl hu (by rw [hth]; exact howns)) ?_ rfl ?_ ?_ ?_ ?_ ?_ ?_ ?_⟩
  · rintro k' ⟨⟩
    exact ⟨rfl, id⟩
  · intro b hb
    refine ⟨rfl, rfl, hu.heads b hb, Function.update_of_ne hb _ _, fun y hy => hnode y ?_,
      fun _ _ => rfl⟩
    exact fun hy' => hb (hi.heap.listed_once hy hy')
  · intro t' y _ hy
    exact hnode y (hi.heap.not_listed (t := t') hy)
  · intro t' pc' ht hpc
    rw [since_snoc]
    refine ((hi.threads t').tracks pc' hpc).write hi.heap.freeChain
      (hi.heap.listed_not_free hi') ?_ hnext
    intro hown
    refine hi.heap.listed_not_owned hi' t' ?_
    rw [← MapThread.owns_of_stack hpc] at hown
    exact hown
  · refine ⟨?_, trivial, by rintro _ _ _ ⟨⟩, ?_, by rintro _ ⟨⟩⟩
    · rintro k' ⟨⟩
      exact hst
    · rintro k' r' ⟨⟩ ⟨⟩
      rw [hstored k rfl, if_pos rfl]
  · intro k' hk' heff'
    have heq : k' ≠ k := by
      rintro rfl
      cases heff' rfl
    rw [hstored k' hk', if_neg heq, content_snoc]
    exact hi.stored hth rfl id hk' fun e => absurd e heq
  · intro k' _
    exact content_snoc h a _ k'
  · intro _ k' hk'
    exact hi.overflow k' (by rw [hk']; exact hne)
  · intro hconv
    rw [show s.map.state (s.map.hash k) = _ from hconv] at hst
    cases hst

/-- A step in the loop of `freeNode`. -/
theorem Inv.erase_frees (hi : Inv place lists free h s) {pc : StackPc} {mv : StackMove}
    (hth : s.threads t = .erase k (.freeLoop pc)) (hm : pc.Moves s.map.freeHead s.map.link mv) :
    Kept h a (s.after t (s.map.freeMove (ρ := Unit) ErasePc.freeLoop .subLen mv).1 (.erase k)
      (fun _ => .erased k) (s.map.freeMove (ρ := Unit) ErasePc.freeLoop .subLen mv).2) := by
  have hok := hi.threads t
  rw [hth] at hok
  have hsome : pc.owns ≠ none := hok.fits
  have htracks := hok.tracks pc rfl
  cases mv with
  | reads pc' =>
      obtain ⟨fh, rfl, -⟩ := hm
      exact absurd rfl hsome
  | links idx next pc' =>
      have hlink : (s.map.setLink idx next).link idx = next := by
        simp [OrderMap.link, OrderMap.setLink, OrderMap.modifyNode]
      obtain ⟨htracks', howns, howns'⟩ := htracks.links hm hlink
      have hc : OrderMap.SameCall (.erase k (.freeLoop pc)) (.erase k (.freeLoop pc')) :=
        .of_erase rfl rfl
      refine ⟨place, lists, free, hi.stores hth rfl id howns
        (fun n => { n with nextIdx := next }) hc (howns'.trans howns.symm) ?_ ?_⟩
      · change pc'.owns ≠ none
        rw [howns']
        exact Option.some_ne_none _
      · rintro _ ⟨⟩
        exact htracks'
  | retries pc' =>
      obtain ⟨htracks', howns⟩ := StackPc.Moves.retries hm
      have hfits : pc'.owns ≠ none := by
        rw [howns]
        exact hsome
      exact hi.loads hth rfl id (.of_erase rfl rfl) howns hfits rfl htracks'
  | findsNone => exact absurd (StackPc.Moves.findsNone hm).2 hsome
  | pops idx head =>
      obtain ⟨next, rfl, -⟩ := hm
      exact absurd rfl hsome
  | pushes idx head =>
      have hc : OrderMap.SameCall (.erase k (.freeLoop pc)) (.erase k .subLen) := .of_erase rfl rfl
      exact hi.pushes hth rfl id hc rfl hm rfl rfl trivial rfl

/-- A step of `erase`. -/
theorem Inv.erase (hi : Inv place lists free h s) {pc : ErasePc} {spurious : Bool}
    (hth : s.threads t = .erase k pc) :
    Kept h a (s.after t (s.map.eraseStep k spurious pc).1 (.erase k) (fun _ => .erased k)
      (s.map.eraseStep k spurious pc).2) := by
  have hok := hi.threads t
  rw [hth] at hok
  have hst := hok.state k rfl
  have hfits : s.map.EraseFits k (lists (s.map.hash k)) pc := hok.fits
  -- the key is in no node of the chain
  have hnone : (MapThread.erase k pc).mode = .chain →
      s.map.nodeOf k (lists (s.map.hash k)) = none → s.map.stored lists k = none := by
    intro hmode hnone
    rw [OrderMap.stored_chain (by rw [hst, hmode]; nofun), hnone]
    rfl
  cases pc with
  | overflow => exact hi.erase_overflow hth
  | head =>
      have hchain := hi.heap.chains (s.map.hash k)
      simp only [OrderMap.eraseStep]
      split
      · rename_i hend
        rw [hend] at hchain
        refine hi.erase_returns hth rfl rfl (.refl _) (hnone rfl ?_)
        rw [hchain.eq_nil_of_head]
        rfl
      · rename_i hend
        obtain ⟨r, hr, -⟩ := hchain.exists_cons hend
        exact hi.passes hth rfl id (.refl _) (.of_erase rfl rfl) rfl ⟨r, hr⟩ rfl
  | headId idx =>
      obtain ⟨r, hr⟩ := hfits
      simp only [OrderMap.eraseStep]
      split
      · rename_i hid
        exact hi.passes hth rfl id (.refl _) (.of_erase rfl rfl) rfl ⟨⟨r, hr⟩, hid⟩ rfl
      · rename_i hid
        exact hi.passes hth rfl id (.refl _) (.of_erase rfl rfl) rfl ⟨⟨[], r, hr, nofun⟩, hid⟩ rfl
  | headNext idx =>
      exact hi.passes hth rfl id (.refl _) (.of_erase rfl rfl) rfl ⟨hfits.1, hfits.2, rfl⟩ rfl
  | unlinkHead idx nxt =>
      obtain ⟨⟨r, hr⟩, hid, rfl⟩ := hfits
      have hchain := hi.heap.chains (s.map.hash k)
      rw [hr] at hchain
      simp only [OrderMap.eraseStep]
      split
      · exact hi.erase_unlinks (l := []) hth rfl rfl hr hid (OrderMap.unlinks_head hchain)
          (by rw [hr]; exact List.mem_cons_self) fun _ _ => rfl
      · rw [hchain.1]
        exact hi.passes hth rfl id (.refl _) (.of_erase rfl rfl) rfl ⟨⟨r, hr⟩, hid⟩ rfl
  | headAgain idx | bucket idx =>
      simp only [OrderMap.eraseStep]
      split
      · exact hi.passes hth rfl id (.refl _) (.of_erase rfl rfl) rfl trivial rfl
      · exact hi.passes hth rfl id (.refl _) (.of_erase rfl rfl) rfl hfits rfl
  | next idx =>
      obtain ⟨l₁, r, hl, hpassed, ⟨l₀, hl₀, hpassed₀⟩, hchain⟩ :=
        hfits.1.behind (hi.heap.chains _) hfits.2
      simp only [OrderMap.eraseStep]
      rcases OrderMap.reached_or_none hl hpassed hchain with ⟨hend, hno⟩ | ⟨hend, -, r', hr'⟩
      · rw [if_pos hend]
        exact hi.erase_returns hth rfl rfl (.refl _) (hnone rfl hno)
      · rw [if_neg hend]
        have hbefore : s.map.Before k (lists (s.map.hash k)) idx (s.map.link idx) :=
          ⟨l₀, r', by rw [hl, hl₀, hr']; simp, hpassed₀, hfits.2⟩
        exact hi.passes hth rfl id (.refl _) (.of_erase rfl rfl) rfl hbefore rfl
  | nextId idx next =>
      simp only [OrderMap.eraseStep]
      split
      · rename_i hid
        exact hi.passes hth rfl id (.refl _) (.of_erase rfl rfl) rfl ⟨hfits, hid⟩ rfl
      · rename_i hid
        obtain ⟨l₁, r, hl, hpassed, hidx⟩ := hfits
        have hreached : s.map.Reached k (lists (s.map.hash k)) next := by
          refine ⟨l₁ ++ [idx], r, by rw [hl]; simp, ?_⟩
          intro y hy
          rcases List.mem_append.mp hy with hy | hy
          · exact hpassed y hy
          · rw [List.mem_singleton.mp hy]
            exact hidx
        exact hi.passes hth rfl id (.refl _) (.of_erase rfl rfl) rfl ⟨hreached, hid⟩ rfl
  | nextNext idx next =>
      exact hi.passes hth rfl id (.refl _) (.of_erase rfl rfl) rfl ⟨hfits.1, hfits.2, rfl⟩ rfl
  | unlink idx next nxt2 =>
      obtain ⟨⟨l₁, r, hl, hpassed, hidx⟩, hid, rfl⟩ := hfits
      have hchain := hi.heap.chains (s.map.hash k)
      rw [hl] at hchain
      simp only [OrderMap.eraseStep]
      split
      · refine hi.erase_unlinks (l := l₁ ++ [idx]) (i := idx) hth rfl rfl (by rw [hl]; simp) hid
          (OrderMap.unlinks_next hchain) (by rw [hl]; simp) fun j hj => ?_
        rw [Function.update_of_ne hj]
        rfl
      · exact hi.passes hth rfl id (.refl _) (.of_erase rfl rfl) rfl trivial rfl
  | free idx =>
      obtain ⟨htracks, howns⟩ := StackPc.tracks_push idx s.map.freeHead s.map.link
      have hsome : (StackPc.push idx s.map.freeHead).owns ≠ none := by
        rw [howns]
        nofun
      exact hi.loads hth rfl id (.of_erase rfl rfl) howns hsome rfl htracks
  | freeLoop pc =>
      exact hi.erase_frees hth (StackPc.moves_move s.map.freeHead s.map.link pc spurious)
  | subLen =>
      exact hi.passes hth rfl id ⟨rfl, rfl, rfl, rfl, rfl, rfl, rfl⟩ (.of_erase rfl rfl) rfl trivial
        rfl
  | subSize =>
      exact hi.erase_returns hth rfl rfl ⟨rfl, rfl, rfl, rfl, rfl, rfl, rfl⟩
        (hok.effect k none rfl rfl)

/-! ### Calls -/

/-- Nobody converts a bucket in which a call may begin. -/
theorem Inv.not_converting (hi : Inv place lists free h s) {looks : Prop}
    (hapart : s.Apart looks k) : s.map.state (s.map.hash k) ≠ .converting := by
  intro hconv
  obtain ⟨t', k', hk', hb, hw⟩ := hi.converting _ hconv
  exact hw (hapart t' k' hk' hb).2

/-- A thread calls. -/
theorem Inv.begins (hi : Inv place lists free h s) {looks : Prop} (hapart : s.Apart looks k)
    (hstep : s.call t th = some (s', o)) (hkey : th.key? = some k) (hlooks : looks → th.Reads)
    (howns : th.owns = none) (hstate : s.map.state (s.map.hash k) = th.mode)
    (hfits : s.map.Fits lists th) (heff : th.effect = none) (hstack : th.stack? = none)
    (habsent : ∀ k v pc, th = .insert k v pc → s.map.stored lists k = none) :
    Kept h a (s', o) ∧ ∀ k r, o = .found k r → r = content h k := by
  rw [call] at hstep
  cases hth : s.threads t with
  | idle =>
      rw [hth] at hstep
      cases hstep
      refine ⟨⟨place, lists, free, hi.turns hth rfl howns trivial ?_ ?_ trivial
        (content_snoc h a _)⟩, nofun⟩
      · intro k' t' k₂ hk' _ hk₂ heq
        obtain rfl : k = k' := Option.some.inj (hkey.symm.trans hk')
        obtain ⟨hl, hr⟩ := hapart t' k₂ hk₂ heq
        exact ⟨hlooks hl, hr⟩
      · refine ⟨?_, hfits, fun k' v' pc' hth' _ => habsent k' v' pc' hth', ?_, ?_⟩
        · intro k' hk'
          obtain rfl : k = k' := Option.some.inj (hkey.symm.trans hk')
          exact hstate
        · intro k' r _ heff'
          rw [heff] at heff'
          cases heff'
        · intro pc hpc
          rw [hstack] at hpc
          cases hpc
  | insert k' v' pc' | find k' pc' | erase k' pc' => rw [hth] at hstep; cases hstep

/-- A step of a run keeps the invariant, and a `find` that returns gives what the calls before it
left under its key. -/
theorem Inv.step (hi : Inv place lists free h s) (hsep : Separate h s a)
    (hstep : s.step a = some (s', o)) :
    Kept h a (s', o) ∧ ∀ k r, o = .found k r → r = content h k := by
  cases a with
  | insert t k v =>
      obtain ⟨hapart, hcontent⟩ := hsep
      have hnone : s.map.stored lists k = none := by
        rw [← hcontent]
        exact hi.holds k fun t' hk' => (hapart t' k hk' rfl).1.elim
      rw [MapThreads.step] at hstep
      cases hst : s.map.state (s.map.hash k) with
      | chain =>
          rw [hst, if_neg (by simp)] at hstep
          exact hi.begins hapart hstep rfl id rfl hst trivial rfl rfl
            (by rintro k' v' pc' ⟨⟩; exact hnone)
      | converting => exact absurd hst (hi.not_converting hapart)
      | treeified =>
          rw [hst, if_pos (by simp)] at hstep
          exact hi.begins hapart hstep rfl id rfl hst trivial rfl rfl
            (by rintro k' v' pc' ⟨⟩; exact hnone)
  | find t k =>
      rw [MapThreads.step] at hstep
      cases hst : s.map.state (s.map.hash k) with
      | chain =>
          rw [hst, if_neg (by simp)] at hstep
          exact hi.begins hsep hstep rfl (fun _ => trivial) rfl hst trivial rfl rfl nofun
      | converting => exact absurd hst (hi.not_converting hsep)
      | treeified =>
          rw [hst, if_pos (by simp)] at hstep
          exact hi.begins hsep hstep rfl (fun _ => trivial) rfl hst trivial rfl rfl nofun
  | erase t k =>
      rw [MapThreads.step] at hstep
      cases hst : s.map.state (s.map.hash k) with
      | chain =>
          rw [hst, if_neg (by simp)] at hstep
          exact hi.begins hsep hstep rfl False.elim rfl hst trivial rfl rfl nofun
      | converting => exact absurd hst (hi.not_converting hsep)
      | treeified =>
          rw [hst, if_pos (by simp)] at hstep
          exact hi.begins hsep hstep rfl False.elim rfl hst trivial rfl rfl nofun
  | next t spurious =>
      rw [MapThreads.step] at hstep
      cases hth : s.threads t with
      | idle => rw [hth] at hstep; cases hstep
      | insert k v pc =>
          rw [hth] at hstep
          obtain ⟨⟨m', n⟩, hins, heq⟩ := Option.map_eq_some_iff.mp hstep
          have hkept := hi.insert (a := .next t spurious) hth hsep hins
          simp only at heq
          rw [heq] at hkept
          refine ⟨hkept, ?_⟩
          rintro k' r rfl
          cases n <;> cases (Prod.mk.inj heq).2
      | find k pc =>
          rw [hth] at hstep
          have hfound := hi.find (a := .next t spurious) hth (Option.some.inj hstep)
          exact ⟨⟨place, lists, free, hfound.1⟩, hfound.2⟩
      | erase k pc =>
          rw [hth] at hstep
          have heq : s.after t (s.map.eraseStep k spurious pc).1 (.erase k) (fun _ => .erased k)
              (s.map.eraseStep k spurious pc).2 = (s', o) := Option.some.inj hstep
          refine ⟨heq ▸ hi.erase hth, ?_⟩
          rintro k' r rfl
          revert heq
          generalize (s.map.eraseStep k spurious pc).2 = n
          intro heq
          cases n <;> cases (Prod.mk.inj heq).2

/-! ### The start -/

theorem Inv.start {c : Nat} (h₀ : OrderMap.ofCapacity c = some m) :
    Inv (fun _ => .free) (fun _ => []) ((List.range' 0 c).map UInt32.ofNat) []
      (MapThreads.start m : MapThreads τ) := by
  obtain ⟨-, hc⟩ := OrderMap.ofCapacity_bounds h₀
  obtain ⟨hrep, hlook⟩ := OrderMap.rep_ofCapacity h₀
  obtain ⟨hcap, hbuckets, hstate, hover⟩ : m.capacity = c ∧ (∀ b, m.buckets b = uint32Max) ∧
      (∀ b, m.state b = .chain) ∧ ∀ k, m.overflow.find? k = none := by
    rw [OrderMap.ofCapacity] at h₀
    split at h₀
    · cases h₀
    · cases h₀
      exact ⟨rfl, fun _ => rfl, fun _ => rfl, fun k => by
        simp [SortedMap.find?, SortedMap.lookupEntry]⟩
  constructor
  case heap =>
    refine ⟨hrep.freeChain, fun b => hbuckets b, ?_, by simp, by simp, ?_⟩
    · intro place x
      change OrderMap.At _ _ _ place x ↔ x.toNat < m.capacity ∧ _
      rw [hcap]
      cases place with
      | free =>
          simp only [OrderMap.At, List.mem_map, List.mem_range'_1, and_true]
          constructor
          · rintro ⟨i, hi, rfl⟩
            rw [toNat_ofNat_of_lt hc (by omega)]
            omega
          · intro hx
            exact ⟨x.toNat, by omega, by simp⟩
      | bucket b => simp [OrderMap.At]
      | thread t => simp [OrderMap.At, MapThreads.start, MapThread.owns]
    · change m.capacity < 2 ^ 32
      omega
  case threads => exact fun _ => .idle
  case alone => rintro _ _ _ _ _ ⟨⟩
  case converting =>
    intro b hb
    have hchain := hstate b
    rw [show m.state b = .converting from hb] at hchain
    cases hchain
  case overflow => exact fun k _ => hover k
  case holds =>
    intro k _
    refine OrderMap.stored_chain (m := m) ?_
    rw [hstate]
    decide

/-! ### A `find` returns -/

/-- The thread returns `r` from `find` after some steps of its own. -/
def Returns (s : MapThreads τ) (t : τ) (k : UInt64) (r : Option UInt32) : Prop :=
  ∃ n s' outs, run MapThreads.step s (List.replicate n (.next t false))
    = some (s', outs ++ [.found k r])

section
variable {r : Option UInt32} {pc pc' : FindPc}

theorem step_find (hth : s.threads t = .find k pc) (spurious : Bool) :
    s.step (.next t spurious)
      = some (s.after t s.map (.find k) (.found k) (s.map.findStep k pc)) := by
  rw [MapThreads.step, hth]

theorem Returns.of_done (hth : s.threads t = .find k pc) (hdone : s.map.findStep k pc = .done r) :
    Returns s t k r := by
  refine ⟨1, s.goto t .idle, [], ?_⟩
  rw [List.replicate_one, run_cons, step_find hth, hdone]
  rfl

theorem Returns.of_goto (hth : s.threads t = .find k pc)
    (hgoto : s.map.findStep k pc = .goto pc') (hr : Returns (s.goto t (.find k pc')) t k r) :
    Returns s t k r := by
  obtain ⟨n, s', outs, hrun⟩ := hr
  refine ⟨n + 1, s', MapEvent.silent :: outs, ?_⟩
  rw [List.replicate_succ, run_cons, step_find hth, hgoto]
  change runNext _ _ (s.goto t (.find k pc'), MapEvent.silent) = _
  rw [runNext_mk, hrun]
  rfl

end

section
variable {owns : τ → Option UInt32} {l₁ r : List UInt32}

theorem threads_goto_self : (s.goto t th).threads t = th := by simp

/-- At a node of the chain. -/
theorem Returns.of_bucket (hp : s.map.Heap place lists free owns)
    (hst : s.map.state (s.map.hash k) = .chain)
    (hreached : s.map.Reached k (lists (s.map.hash k)) idx)
    (hth : s.threads t = .find k (.bucket idx))
    (hnext : (s.map.nodes idx).orderId ≠ k →
      Returns (s.goto t (.find k (.next idx))) t k (s.map.stored lists k)) :
    Returns s t k (s.map.stored lists k) := by
  have hbucket := (hp.bucket _ idx hreached.mem).1
  have hgoto : ∀ p q, (s.goto t p).goto t q = s.goto t q := fun p q => by simp [goto]
  have hstep : s.map.findStep k (.bucket idx) = .goto (.id idx) := by
    simp [OrderMap.findStep, hbucket]
  refine Returns.of_goto hth hstep ?_
  by_cases hid : (s.map.nodes idx).orderId = k
  · have horder : s.map.findStep k (.id idx) = .goto (.order idx) := if_pos hid
    refine Returns.of_goto threads_goto_self horder (Returns.of_done threads_goto_self ?_)
    rw [OrderMap.stored_chain (by rw [hst]; decide), hreached.nodeOf hid]
    rfl
  · have hother : s.map.findStep k (.id idx) = .goto (.next idx) := if_neg hid
    refine Returns.of_goto threads_goto_self hother ?_
    rw [hgoto]
    exact hnext hid

/-- Behind a node of the chain. The induction is on what is left of the chain. -/
theorem Returns.of_next (hp : s.map.Heap place lists free owns)
    (hst : s.map.state (s.map.hash k) = .chain)
    (hl : lists (s.map.hash k) = l₁ ++ idx :: r)
    (hpassed : ∀ y ∈ l₁ ++ [idx], (s.map.nodes y).orderId ≠ k)
    (hth : s.threads t = .find k (.next idx)) : Returns s t k (s.map.stored lists k) := by
  induction r generalizing s l₁ idx with
  | nil =>
      have hchain := hp.chains (s.map.hash k)
      rw [hl] at hchain
      have hend : s.map.link idx = uint32Max := (Chain.suffix hchain).2.2
      refine Returns.of_done hth ?_
      rw [OrderMap.stored_chain (by rw [hst]; nofun), hl, OrderMap.nodeOf_eq_none hpassed]
      exact if_pos hend
  | cons x r ih =>
      have hchain := hp.chains (s.map.hash k)
      rw [hl] at hchain
      obtain ⟨hx, hne, -⟩ := (Chain.suffix hchain).2.2
      have hgoto : s.map.findStep k (.next idx) = .goto (.bucket x) := by
        rw [OrderMap.findStep, hx, OrderMap.findAt, if_neg hne]
      have hl' : lists (s.map.hash k) = (l₁ ++ [idx]) ++ x :: r := by
        rw [hl]
        simp
      refine Returns.of_goto hth hgoto ?_
      refine Returns.of_bucket (s := s.goto t (.find k (.bucket x))) hp hst ⟨_, _, hl', hpassed⟩
        threads_goto_self fun hid => ?_
      refine ih (s := (s.goto t (.find k (.bucket x))).goto t (.find k (.next x))) hp hst hl' ?_
        threads_goto_self
      intro y hy
      rcases List.mem_append.mp hy with hy | hy
      · exact hpassed y hy
      · rw [List.mem_singleton.mp hy]
        exact hid

/-- At a node of the chain, and on to the end of it. -/
theorem Returns.of_reached (hp : s.map.Heap place lists free owns)
    (hst : s.map.state (s.map.hash k) = .chain)
    (hreached : s.map.Reached k (lists (s.map.hash k)) idx)
    (hth : s.threads t = .find k (.bucket idx)) : Returns s t k (s.map.stored lists k) := by
  refine Returns.of_bucket hp hst hreached hth fun hid => ?_
  obtain ⟨l₁, r, hl, hpassed⟩ := hreached
  refine Returns.of_next (s := s.goto t (.find k (.next idx))) hp hst hl ?_ threads_goto_self
  intro y hy
  rcases List.mem_append.mp hy with hy | hy
  · exact hpassed y hy
  · rw [List.mem_singleton.mp hy]
    exact hid

end

/-- A `find` that is under way returns what is stored. -/
theorem Inv.returns_find (hi : Inv place lists free h s) {pc : FindPc}
    (hth : s.threads t = .find k pc) : Returns s t k (s.map.stored lists k) := by
  have hok := hi.threads t
  rw [hth] at hok
  have hst := hok.state k rfl
  have hfits : s.map.FindFits k (lists (s.map.hash k)) pc := hok.fits
  cases pc with
  | overflow => exact Returns.of_done hth (by rw [OrderMap.stored_treeified hst]; rfl)
  | head =>
      have hchain := hi.heap.chains (s.map.hash k)
      rcases OrderMap.reached_or_none (k := k) (List.nil_append _).symm nofun hchain with
        ⟨hend, hno⟩ | ⟨hend, hreached, -⟩
      · refine Returns.of_done hth ?_
        rw [OrderMap.stored_chain (by rw [hst]; nofun), hno]
        exact if_pos hend
      · have hstep : s.map.findStep k .head = .goto (.bucket (s.map.buckets (s.map.hash k))) :=
          if_neg hend
        exact Returns.of_goto hth hstep
          (Returns.of_reached (s := s.goto t _) hi.heap hst hreached threads_goto_self)
  | bucket idx => exact Returns.of_reached hi.heap hst hfits hth
  | id idx =>
      by_cases hid : (s.map.nodes idx).orderId = k
      · have hstep : s.map.findStep k (.id idx) = .goto (.order idx) := if_pos hid
        refine Returns.of_goto hth hstep (Returns.of_done threads_goto_self ?_)
        rw [OrderMap.stored_chain (by rw [hst]; nofun), hfits.nodeOf hid]
        rfl
      · have hstep : s.map.findStep k (.id idx) = .goto (.next idx) := if_neg hid
        obtain ⟨l₁, r, hl, hpassed⟩ := hfits
        refine Returns.of_goto hth hstep
          (Returns.of_next (s := s.goto t (.find k (.next idx))) hi.heap hst hl ?_
            threads_goto_self)
        simpa [or_imp, forall_and] using ⟨hpassed, hid⟩
  | order idx =>
      refine Returns.of_done hth ?_
      rw [OrderMap.stored_chain (by rw [hst]; nofun), hfits.1.nodeOf hfits.2]
      rfl
  | next idx =>
      obtain ⟨⟨l₁, r, hl, hpassed⟩, hid⟩ := hfits
      refine Returns.of_next hi.heap hst hl ?_ hth
      simpa [or_imp, forall_and] using ⟨hpassed, hid⟩

/-! ### Runs -/

/-- **A `find` gives what was inserted last.** In every run in which calls on keys of one bucket do
not overlap, unless all of them only look, inserts are of absent keys, and no thread is in a loop on
the free stack while `2 ^ 32` exchanges of its head succeed: a `find` that returned gave the value
of the last insert of its key that had returned `true`, and `nullptr` after an erase or without one.
A `find` that is under way returns, and gives that, after steps of its own thread; its section under
`overflow_lock_` is one of these steps, so it is taken to get the lock. -/
theorem finds_last_inserted {c : Nat} (h₀ : OrderMap.ofCapacity c = some m)
    (tr : Trace MapThreads.step Separate (MapThreads.start m : MapThreads τ) h s) :
    (∀ h₁ a k r h₂, h = h₁ ++ (a, .found k r) :: h₂ → r = content h₁ k) ∧
      ∀ t k pc, s.threads t = .find k pc → Returns s t k (content h k) := by
  obtain ⟨⟨place, lists, free, hi⟩, hfound⟩ :
      (∃ place lists free, Inv place lists free h s) ∧
        ∀ h₁ a k r h₂, h = h₁ ++ (a, .found k r) :: h₂ → r = content h₁ k := by
    refine tr.invariant (fun h s => (∃ place lists free, Inv place lists free h s) ∧
      ∀ h₁ a k r h₂, h = h₁ ++ (a, .found k r) :: h₂ → r = content h₁ k)
      ⟨⟨_, _, _, Inv.start h₀⟩, by simp⟩ ?_
    rintro h s a s' o - ⟨⟨place, lists, free, hi⟩, hfound⟩ hsep hstep
    obtain ⟨hkept, hres⟩ := hi.step hsep hstep
    refine ⟨hkept, ?_⟩
    intro h₁ a' k r h₂ heq
    rcases List.eq_nil_or_concat h₂ with rfl | ⟨h₂', x, rfl⟩
    · obtain ⟨rfl, hlast⟩ := List.append_inj' heq rfl
      cases hlast
      exact hres k r rfl
    · rw [List.concat_eq_append, ← List.cons_append, ← List.append_assoc] at heq
      exact hfound h₁ a' k r h₂' (List.append_inj' heq rfl).1
  refine ⟨hfound, ?_⟩
  intro t k pc hth
  have hstored : s.map.stored lists k = content h k := by
    refine hi.holds k fun t' ht' => ?_
    by_cases ht : t' = t
    · rw [ht, hth]
      rfl
    · -- whoever else is in the bucket only looks
      have hread := hi.alone t' t k k ht ht' (by rw [hth]; rfl) rfl
      cases hc : s.threads t' with
      | idle => rfl
      | insert k' v' pc' =>
          rw [hc] at hread
          exact absurd hread id
      | find k' pc' => rfl
      | erase k' pc' =>
          rw [hc] at hread
          exact absurd hread id
  rw [← hstored]
  exact hi.returns_find hth

/-- The calls of `find` that returned, with their results. -/
def finds (h : List (MapAction τ × MapEvent τ)) : List (UInt64 × Option UInt32) :=
  h.filterMap fun x => match x.2 with
    | .found k r => some (k, r)
    | _ => none

/-- Two threads insert into two buckets at once, and one of them has to repeat its exchange. One
erases key 18 from the middle of its chain, while the other looks up a key of another bucket, and
inserts it again with another order. The eighth key converts the bucket, from which key 26 is
erased, and a `find` of key 18 is under way. -/
theorem finds_last_inserted_converted :
    ∃ (m : OrderMap) (h : List (MapAction Bool × MapEvent Bool)) (s : MapThreads Bool),
      OrderMap.ofCapacity 16 = some m ∧ Trace MapThreads.step Separate (MapThreads.start m) h s ∧
      finds h = [(0, some 20), (18, none), (5, some 10), (26, none)] ∧
      s.map.state (s.map.hash 18) = .treeified ∧ s.threads true = .find 18 .overflow ∧
      Returns s true 18 (some 11) := by
  let go (t : Bool) (n : Nat) : List (MapAction Bool) := List.replicate n (.next t false)
  let insert (k : UInt64) (v : UInt32) : List (MapAction Bool) := .insert false k v :: go false 15
  let chain : List (MapAction Bool) := List.flatten [[.insert false 5 10, .insert true 0 20],
    (List.replicate 15 [.next false false, .next true false]).flatten, go true 2, insert 18 1,
    insert 26 2, .erase false 18 :: go false 7, .find true 0 :: go true 4, go false 5,
    .find true 18 :: go true 7, .find false 5 :: go false 7]
  let tree : List (MapAction Bool) := List.flatten [insert 18 11, insert 39 3, insert 60 4,
    insert 73 5, insert 94 6, insert 115 7, go false 2, [.erase false 26, .next false false,
      .find false 26, .next false false, .find true 18]]
  have hrun : ((OrderMap.ofCapacity 16).bind fun m =>
      (checked Separate MapThreads.step [] (MapThreads.start m) (chain ++ tree)).map fun r =>
        (finds r.2, r.1.map.state (r.1.map.hash 18), r.1.threads true, content r.2 18))
      = some ([(0, some 20), (18, none), (5, some 10), (26, none)], .treeified,
        .find 18 .overflow, some 11) := by
    decide +kernel
  simp only [Option.bind_eq_some_iff, Option.map_eq_some_iff, Prod.mk.injEq] at hrun
  obtain ⟨m, hm, ⟨s, h⟩, hrun, hfinds, hstate, hthread, hcontent⟩ := hrun
  have tr := Trace.of_checked .nil hrun
  have hreturns := (finds_last_inserted hm tr).2 true 18 .overflow hthread
  exact ⟨m, h, s, hm, tr, hfinds, hstate, hthread, hcontent ▸ hreturns⟩

end MapThreads

end NebulaX
