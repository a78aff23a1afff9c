import NebulaX.Engine.Protocol
import NebulaX.Lib.Ring

/-!
# `NebulaX.Proofs.WalSessions`: the log file over several sessions

The file does not say where the last session stopped writing. `init` takes the number of
entries from the length of the file, which is the full length from the first session on, so
every session writes from the first slot; and the reader always begins with the first slot.

* `session_base`: a session writes its entries into the ring, from slot 0 on.
* `wal_order`: the entries are read back in the order of their appends if the last session
  that wrote anything filled the file a whole number of times, or was the only one and did
  not wrap. For distinct entries these are the only cases.
* `second_session_overwrites`: a session of one entry after another.
-/

set_option autoImplicit false

namespace NebulaX

open NebulaX.Lib

namespace WalFile

/-- A file that nobody has opened yet. -/
def empty : WalFile := ⟨0, fun _ => {}⟩

/-- A session: `init`, and then appends. -/
def session (f : WalFile) (entries : List WalEntry) : WalFile :=
  { (WalWriter.init f).1 with base := (entries.foldl WalWriter.append (WalWriter.init f).2).base }

/-- The entries a reader finds, in the order in which it reads them; zeros are passed over. -/
def enumerated (f : WalFile) : List WalEntry :=
  match WalReader.openFile f with
  | none => []
  | some r => ((List.range r.count).filterMap r.entryAt).filter fun entry => entry.type ≠ 0

/-- New, or brought to its full length by `init`. -/
def Sized (f : WalFile) : Prop := (f.size = 0 ∧ f.base = fun _ => {}) ∨ f.size = walSize

section
variable {f : WalFile} {xs : List WalEntry}

theorem walEntries_eq : walSize / 40 = walEntries := rfl

/-- The file before its first session. -/
theorem sized_empty : Sized empty := Or.inl ⟨rfl, rfl⟩

/-- Appends go around the ring, as long as the counter does not overflow. -/
theorem foldl_append_base (w : WalWriter) (xs : List WalEntry)
    (h : w.total.toNat + xs.length < 2 ^ 64) :
    (xs.foldl WalWriter.append w).base = Ring.write walEntries w.base w.total.toNat xs := by
  induction xs generalizing w with
  | nil => rfl
  | cons x xs ih =>
      rw [List.length_cons] at h
      have htotal : (w.append x).total.toNat = w.total.toNat + 1 := by
        show (w.total + 1).toNat = _
        rw [UInt64.toNat_add]
        exact Nat.mod_eq_of_lt (show w.total.toNat + 1 < 2 ^ 64 by omega)
      rw [List.foldl_cons, ih _ (by omega), htotal, Ring.write]
      rfl

/-- A session leaves a file of full length. -/
theorem session_size (hf : f.Sized) (xs : List WalEntry) : (f.session xs).size = walSize := by
  rcases hf with ⟨hsize, -⟩ | hsize
  · simp [session, WalWriter.init, hsize]
  · have : walSize ≠ 0 := by decide
    simp [session, WalWriter.init, hsize, this]

/-- A session writes its entries into the ring, from slot 0 on. -/
theorem session_base (hf : f.Sized) {xs : List WalEntry} (hxs : xs.length + walEntries < 2 ^ 64) :
    ∃ pos, pos % walEntries = 0 ∧ (f.session xs).base = Ring.write walEntries f.base pos xs := by
  rcases hf with ⟨hsize, hbase⟩ | hsize
  · refine ⟨0, Nat.zero_mod _, ?_⟩
    simp only [session, WalWriter.init, hsize, if_true]
    rw [foldl_append_base _ _ (show (0 : UInt64).toNat + _ < _ by simp; omega), hbase]
    rfl
  · -- The length says that the file is full, so the position is that of slot 0.
    have hne : ¬ f.size = 0 := by rw [hsize]; decide
    have htotal : (UInt64.ofNat (min (f.size / 40) walEntries)).toNat = walEntries := by
      rw [hsize, walEntries_eq, Nat.min_self]
      decide
    refine ⟨walEntries, Nat.mod_self _, ?_⟩
    simp only [session, WalWriter.init, if_neg hne]
    rw [foldl_append_base _ _ (by rw [htotal]; omega), htotal]

/-- What a reader finds in a file of full length. -/
theorem enumerated_eq (hsize : f.size = walSize) :
    f.enumerated = ((List.range walEntries).map f.base).filter fun entry => entry.type ≠ 0 := by
  have hopen : WalReader.openFile f = some ⟨f.base, walEntries⟩ := by
    rw [WalReader.openFile, hsize, walEntries_eq, Nat.min_self, if_neg (by decide)]
  have hall : (List.range walEntries).filterMap (WalReader.entryAt ⟨f.base, walEntries⟩)
      = (List.range walEntries).map f.base := by
    rw [← List.filterMap_eq_map]
    refine List.filterMap_congr fun i hi => ?_
    exact if_pos (List.mem_range.mp hi)
  simp only [enumerated, hopen, hall]

/-- Sessions leave a file of full length as long as it is. -/
theorem sessions_size (ss : List (List WalEntry)) (hsize : f.size = walSize) :
    (ss.foldl session f).size = walSize := by
  induction ss generalizing f with
  | nil => exact hsize
  | cons s ss ih => exact ih (session_size (Or.inr hsize) s)

theorem sessions_sized (ss : List (List WalEntry)) (hf : f.Sized) :
    (ss.foldl session f).Sized := by
  cases ss with
  | nil => exact hf
  | cons s ss => exact Or.inr (sessions_size ss (session_size hf s))

/-- Sessions that write nothing. -/
theorem sessions_of_nil {ss : List (List WalEntry)} (hss : ∀ s ∈ ss, s = []) (hf : f.Sized) :
    (ss.foldl session f).base = f.base := by
  induction ss generalizing f with
  | nil => rfl
  | cons s ss ih =>
      obtain rfl := hss s List.mem_cons_self
      obtain ⟨pos, -, hbase⟩ := session_base hf (show ([] : List WalEntry).length + _ < _ by decide)
      exact (ih (fun s hs => hss s (List.mem_cons_of_mem _ hs)) (Or.inr (session_size hf []))).trans
        hbase

end

/-! ### The order of the entries -/

/-- The last session that wrote anything is `xs`. -/
structure LastWriter (ss pre : List (List WalEntry)) (xs : List WalEntry)
    (post : List (List WalEntry)) : Prop where
  split : ss = pre ++ xs :: post
  wrote : xs ≠ []
  silent : ∀ s ∈ post, s = []

/-- The sessions after which the log is in order: no session overflows the counter, and the
last one that wrote anything filled the file a whole number of times, or was the only one and
did not wrap. -/
def InOrder (ss : List (List WalEntry)) : Prop :=
  (∀ s ∈ ss, s.length + walEntries < 2 ^ 64) ∧ ((∀ s ∈ ss, s = []) ∨
    ∃ pre xs post, LastWriter ss pre xs post ∧ (walEntries ∣ xs.length ∨
      xs.length ≤ walEntries ∧ ∀ s ∈ pre, s = []))

section
variable {ss pre post : List (List WalEntry)} {xs : List WalEntry}

/-- Either nothing was written, or there is a last session that wrote. -/
theorem exists_lastWriter (ss : List (List WalEntry)) :
    (∀ s ∈ ss, s = []) ∨ ∃ pre xs post, LastWriter ss pre xs post := by
  induction ss with
  | nil => exact Or.inl fun s hs => absurd hs List.not_mem_nil
  | cons s ss ih =>
      rcases ih with hnil | ⟨pre, xs, post, hsplit, hne, hpost⟩
      · by_cases hs : s = []
        · subst hs
          exact Or.inl (List.forall_mem_cons.mpr ⟨rfl, hnil⟩)
        · exact Or.inr ⟨[], s, ss, rfl, hs, hnil⟩
      · exact Or.inr ⟨s :: pre, xs, post, by rw [hsplit]; rfl, hne, hpost⟩

/-- The appends of all sessions. -/
theorem LastWriter.flatten (h : LastWriter ss pre xs post) : ss.flatten = pre.flatten ++ xs := by
  have hpost : post.flatten = [] := List.flatten_eq_nil_iff.mpr h.silent
  rw [h.split, List.flatten_append, List.flatten_cons, hpost, List.append_nil]

/-- What is read is what the last writer left. -/
theorem LastWriter.enumerated_eq (h : LastWriter ss pre xs post)
    (hcount : ∀ s ∈ ss, s.length + walEntries < 2 ^ 64) :
    ∃ pos, pos % walEntries = 0 ∧ (ss.foldl session empty).enumerated
      = ((List.range walEntries).map
          (Ring.write walEntries (pre.foldl session empty).base pos xs)).filter
            fun entry => entry.type ≠ 0 := by
  have hpre : (pre.foldl session empty).Sized := sessions_sized pre sized_empty
  obtain ⟨pos, hpos, hbase⟩ := session_base hpre (hcount xs (by rw [h.split]; simp))
  have hsize := session_size hpre xs
  refine ⟨pos, hpos, ?_⟩
  rw [h.split, List.foldl_append, List.foldl_cons,
    WalFile.enumerated_eq (sessions_size post hsize), sessions_of_nil h.silent (Or.inr hsize),
    hbase]

/-- The slots of a new file are passed over. -/
theorem filter_zeros (l : List Nat) :
    (l.map empty.base).filter (fun entry => entry.type ≠ 0) = [] := by
  simp [empty]

/-- Nothing was written, and nothing is read. -/
theorem enumerated_of_nil (hss : ∀ s ∈ ss, s = []) :
    (ss.foldl session empty).enumerated = [] := by
  have hbase := sessions_of_nil hss sized_empty
  rcases sessions_sized ss sized_empty with ⟨hsize, -⟩ | hsize
  · simp [enumerated, WalReader.openFile, hsize]
  · rw [WalFile.enumerated_eq hsize, hbase, filter_zeros]

/-- Entries of a kind are all read. -/
theorem filter_type {l : List WalEntry} (h : ∀ entry ∈ l, entry.type ≠ 0) :
    l.filter (fun entry => entry.type ≠ 0) = l :=
  List.filter_eq_self.mpr fun entry hentry => by simpa using h entry hentry

/-- The sessions after which the log is in order. -/
theorem enumerated_of_inOrder (htype : ∀ s ∈ ss, ∀ entry ∈ s, entry.type ≠ 0)
    (h : InOrder ss) : (ss.foldl session empty).enumerated
      = ss.flatten.drop (ss.flatten.length - walEntries) := by
  obtain ⟨hcount, hnil | ⟨pre, xs, post, hlast, hkind⟩⟩ := h
  · rw [enumerated_of_nil hnil, List.flatten_eq_nil_iff.mpr hnil]
    rfl
  · obtain ⟨pos, hpos, hread⟩ := hlast.enumerated_eq hcount
    have hxs : ∀ entry ∈ xs, entry.type ≠ 0 := htype xs (by rw [hlast.split]; simp)
    rw [hread, hlast.flatten]
    rcases hkind with hdvd | ⟨hle, hpre⟩
    · -- The last `walEntries` appends are all of the last writer.
      have hfits := Nat.le_of_dvd (List.length_pos_iff.mpr hlast.wrote) hdvd
      rw [Ring.map_write_of_dvd _ hpos hlast.wrote hdvd, filter_type fun entry hentry =>
        hxs entry (List.mem_of_mem_drop hentry), List.length_append,
        Nat.add_sub_assoc hfits, List.drop_length_add_append]
    · -- The file was new, and what was not written is still zero.
      rw [sessions_of_nil hpre sized_empty, Ring.map_write_of_le _ hpos hle, List.filter_append,
        filter_zeros, List.append_nil, filter_type hxs, List.flatten_eq_nil_iff.mpr hpre,
        List.nil_append, Nat.sub_eq_zero_of_le hle, List.drop_zero]

/-- The first entry that is read is the one in slot 0. -/
theorem LastWriter.head? (h : LastWriter ss pre xs post)
    (htype : ∀ s ∈ ss, ∀ entry ∈ s, entry.type ≠ 0)
    (hcount : ∀ s ∈ ss, s.length + walEntries < 2 ^ 64) :
    (ss.foldl session empty).enumerated.head?
      = xs[(xs.length - 1) / walEntries * walEntries]? := by
  obtain ⟨pos, hpos, hread⟩ := h.enumerated_eq hcount
  have hlt : (xs.length - 1) / walEntries * walEntries < xs.length := by
    have := Nat.div_mul_le_self (xs.length - 1) walEntries
    have := List.length_pos_iff.mpr h.wrote
    omega
  obtain ⟨n, hn⟩ : ∃ n, walEntries = n + 1 := ⟨walEntries - 1, by decide⟩
  have hslot : Ring.write walEntries (pre.foldl session empty).base pos xs 0
      = xs.get ⟨_, hlt⟩ := by
    rw [Ring.write_slot _ hpos xs (by rw [hn]; omega), Nat.zero_add, Nat.sub_zero, List.getD,
      List.getElem?_eq_getElem hlt]
    rfl
  have hkind : (xs.get ⟨_, hlt⟩).type ≠ 0 :=
    htype xs (by rw [h.split]; simp) _ (List.get_mem xs _)
  rw [hread]
  conv_lhs => rw [show List.range walEntries = List.range (n + 1) by rw [hn]]
  rw [List.range_succ_eq_map, List.map_cons, hslot, List.filter_cons_of_pos (by simpa using hkind),
    List.head?_cons, List.getElem?_eq_getElem hlt]
  rfl

/-- The order of the log over sessions. After sessions that are `InOrder`, the entries that
are read are the last `walEntries` appends, oldest first. If all entries are different and
no counter overflows, this holds after no other sessions. -/
theorem wal_order (ss : List (List WalEntry)) (htype : ∀ s ∈ ss, ∀ entry ∈ s, entry.type ≠ 0) :
    (InOrder ss → (ss.foldl session empty).enumerated
      = ss.flatten.drop (ss.flatten.length - walEntries)) ∧
    (ss.flatten.Nodup → (∀ s ∈ ss, s.length + walEntries < 2 ^ 64) →
      (ss.foldl session empty).enumerated = ss.flatten.drop (ss.flatten.length - walEntries) →
      InOrder ss) := by
  refine ⟨enumerated_of_inOrder htype, fun hnodup hcount hread => ⟨hcount, ?_⟩⟩
  rcases exists_lastWriter ss with hnil | ⟨pre, xs, post, hlast⟩
  · exact Or.inl hnil
  · refine Or.inr ⟨pre, xs, post, hlast, ?_⟩
    have hpos := List.length_pos_iff.mpr hlast.wrote
    have hbound := Nat.div_mul_le_self (xs.length - 1) walEntries
    -- Slot 0 is read first, and the oldest of the last appends should be.
    have hhead := congrArg List.head? hread
    rw [hlast.head? htype hcount, hlast.flatten, List.head?_drop,
      show xs[(xs.length - 1) / walEntries * walEntries]? = (pre.flatten ++ xs)[pre.flatten.length
        + (xs.length - 1) / walEntries * walEntries]? by
      rw [List.getElem?_append_right (by omega), Nat.add_sub_cancel_left]] at hhead
    rw [hlast.flatten] at hnodup
    have hlt : pre.flatten.length + (xs.length - 1) / walEntries * walEntries
        < (pre.flatten ++ xs).length := by
      rw [List.length_append]
      omega
    have hindex := (List.getElem?_inj hlt hnodup).mp hhead
    rw [List.length_append] at hindex
    rcases Nat.lt_or_ge walEntries xs.length with hlong | hshort
    · exact Or.inl ⟨(xs.length - 1) / walEntries + 1, by rw [Nat.mul_add, Nat.mul_comm]; omega⟩
    · rw [Nat.div_eq_of_lt (show xs.length - 1 < walEntries by omega)] at hindex
      rcases Nat.lt_or_ge xs.length walEntries with hlt | hge
      · refine Or.inr ⟨hshort, List.flatten_eq_nil_iff.mp (List.length_eq_zero_iff.mp ?_)⟩
        omega
      · exact Or.inl ⟨1, by omega⟩

/-- A session of one entry after another: only the second entry is left. -/
theorem second_session_overwrites :
    let first : WalEntry := { type := 0x01, orderId := 1 }
    let second : WalEntry := { type := 0x02, orderId := 1 }
    (List.foldl session empty [[first], [second]]).enumerated = [second] := by
  intro first second
  have hlast : LastWriter [[first], [second]] [[first]] [second] [] :=
    ⟨rfl, List.cons_ne_nil _ _, fun s hs => absurd hs List.not_mem_nil⟩
  obtain ⟨pos, hpos, hread⟩ := hlast.enumerated_eq (by simp [walEntries, walSize])
  obtain ⟨pos', hpos', hbase⟩ := session_base sized_empty
    (show [first].length + walEntries < 2 ^ 64 by simp [walEntries, walSize])
  rw [hread, Ring.map_write_of_le _ hpos (by decide), List.filter_append, List.foldl_cons,
    List.foldl_nil, hbase]
  -- Behind slot 0 the first session left zeros.
  have hrest : ((List.range' [second].length (walEntries - [second].length)).map
      (Ring.write walEntries empty.base pos' [first])).filter (fun entry => entry.type ≠ 0)
      = [] := by
    refine (congrArg (List.filter _) (List.map_congr_left fun i hi => ?_)).trans
      (filter_zeros (List.range' [second].length (walEntries - [second].length)))
    obtain ⟨h₁, h₂⟩ := List.mem_range'_1.mp hi
    have hle : [second].length ≤ walEntries := by decide
    rw [Ring.write_slot _ hpos' [first] (by omega)]
    have hout : [first].length ≤ i + ([first].length - 1 - i) / walEntries * walEntries :=
      Nat.le_trans h₁ (Nat.le_add_right _ _)
    rw [List.getD, List.getElem?_eq_none hout, Option.getD_none]
  rw [hrest, List.append_nil]
  rfl

/-- A new file and one session. -/
theorem wal_order_once :
    let first : WalEntry := { type := 0x01, orderId := 1 }
    let second : WalEntry := { type := 0x02, orderId := 1 }
    InOrder [[first, second]] ∧
      (List.foldl session empty [[first, second]]).enumerated = [first, second] := by
  intro first second
  have hin : InOrder [[first, second]] := by
    refine ⟨by simp [walEntries, walSize], Or.inr ⟨[], [first, second], [], ⟨rfl, by simp, by simp⟩,
      Or.inr ⟨by decide, by simp⟩⟩⟩
  refine ⟨hin, ((wal_order [[first, second]] ?_).1 hin).trans ?_⟩
  · simp [first, second]
  · decide

end

end WalFile

end NebulaX
