/-
# Whole frames

What a log is made of (`Frames`).  Its reader gives back the entries of whole frames, those of any
bytes that follow behind them (`Frames.readAll_append`), and, when the bytes are cut off anywhere,
the entries of the frames that are still whole (`Frames.readAll_cut`).  It finds them torn just when
the cut is not between two frames (`Frame.readAll_torn`).

A frame that was damaged, with more behind it, is refused, but only while its header has the length that
it had: the checksum does not cover it (`Frames.readAll_damaged`).
-/

import ColumnStore.Log.Frame
import ColumnStore.Proofs.Attempts
import ColumnStore.Proofs.Coding.ReadsBack

namespace ColumnStore
namespace Frame

/-- The bytes of the frame of an entry. -/
def Whole (frame : Bytes) (e : LogEntry) : Prop :=
  ∃ (h : FrameHeader) (payload : Bytes), FrameHeader.decode? frame = some (h, payload) ∧
    payload.length = h.length ∧ fault? h payload = none ∧ entry h payload = .ok e

/-- Frames one behind the other, the first at a place, with their entries and the places behind
them. -/
inductive Frames : Nat → Bytes → List (LogEntry × Nat) → Prop
  | nil (place : Nat) : Frames place [] []
  | cons {place : Nat} {frame rest : Bytes} {e : LogEntry} {es : List (LogEntry × Nat)}
    (hw : Whole frame e) (hr : Frames (place + frame.length) rest es) :
    Frames place (frame ++ rest) ((e, place + frame.length) :: es)

theorem decode?_eq_some {b payload : Bytes} {h : FrameHeader}
    (hd : FrameHeader.decode? b = some (h, payload)) :
    ∃ head, b = head ++ payload ∧ head.length = FrameHeader.size ∧
      ∀ rest, FrameHeader.decode? (head ++ rest) = some (h, rest) := by
  obtain ⟨⟨head, rest⟩, hs, heq⟩ := Option.map_eq_some_iff.mp hd
  obtain ⟨rfl, hlen⟩ := Bytes.split?_eq_some.mp hs
  obtain ⟨hh, rfl⟩ := Prod.mk.inj heq
  refine ⟨head, rfl, hlen, fun more => ?_⟩
  rw [FrameHeader.decode?, ← hlen, Bytes.split?_append, Option.map_some]
  exact congrArg some (Prod.mk.injEq .. ▸ ⟨hh, rfl⟩)

/-- **A whole frame is split off.** -/
theorem Whole.split? {frame : Bytes} {e : LogEntry} (hw : Whole frame e) (rest : Bytes) :
    ∃ h payload, Frame.split? (frame ++ rest) = some (h, payload, rest) ∧
      fault? h payload = none ∧ entry h payload = .ok e ∧
      frame.length = FrameHeader.size + payload.length := by
  obtain ⟨h, payload, hd, hlen, hf, he⟩ := hw
  obtain ⟨head, rfl, hhead, hall⟩ := decode?_eq_some hd
  refine ⟨h, payload, ?_, hf, he, by rw [List.length_append, hhead]⟩
  have hs := Bytes.split?_append payload rest
  rw [hlen] at hs
  simp only [Frame.split?, List.append_assoc, hall, Option.bind_eq_bind, Option.bind_some, hs]

theorem Whole.ne_nil {frame : Bytes} {e : LogEntry} (hw : Whole frame e) : frame ≠ [] := by
  obtain ⟨h, payload, -, -, -, hlen⟩ := hw.split? []
  intro hnil
  rw [hnil] at hlen
  simp [FrameHeader.size] at hlen
  omega

/-- **A frame that is cut off is not split off.** -/
theorem Whole.split?_take {frame : Bytes} {e : LogEntry} (hw : Whole frame e) {n : Nat}
    (hn : n < frame.length) : Frame.split? (frame.take n) = none := by
  obtain ⟨h, payload, hd, hlen, -, -⟩ := hw
  obtain ⟨head, rfl, hhead, hall⟩ := decode?_eq_some hd
  rw [List.length_append, hhead] at hn
  by_cases hshort : n < FrameHeader.size
  · have hnone : FrameHeader.decode? ((head ++ payload).take n) = none := by
      rw [FrameHeader.decode?, Bytes.split?, if_neg]
      · rfl
      · simp only [List.length_take, List.length_append]
        omega
    simp only [Frame.split?, hnone, Option.bind_eq_bind, Option.bind_none]
  · have htake : (head ++ payload).take n = head ++ payload.take (n - FrameHeader.size) := by
      rw [List.take_append, hhead, List.take_of_length_le (by omega)]
    have hnone : Bytes.split? h.length (payload.take (n - FrameHeader.size)) = none := by
      rw [Bytes.split?, if_neg]
      simp only [List.length_take]
      omega
    simp only [Frame.split?, htake, hall, hnone, Option.bind_eq_bind, Option.bind_some,
      Option.bind_none]

/-- Bytes that end inside their first frame are torn. -/
theorem readAll_of_none {b : Bytes} (hb : b ≠ []) (hs : Frame.split? b = none) (place : Nat) :
    Frame.readAll place b = .ok { validLength := place, torn := true } := by
  have hne : b.isEmpty = false := List.isEmpty_eq_false_iff.mpr hb
  rw [Frame.readAll]
  simp only [hne, Bool.false_eq_true, if_false]
  split
  · rfl
  · rename_i hsome
    rw [hs] at hsome
    cases hsome

/-- **The reader takes a whole frame and goes on.** -/
theorem Whole.readAll {frame : Bytes} {e : LogEntry} (hw : Whole frame e) (place : Nat)
    (rest : Bytes) : Frame.readAll place (frame ++ rest) =
      (Frame.readAll (place + frame.length) rest).map fun more =>
        { more with entries := (e, place + frame.length) :: more.entries } := by
  obtain ⟨h, payload, hs, hf, he, hlen⟩ := hw.split? rest
  have hne : (frame ++ rest).isEmpty = false := by
    rw [List.isEmpty_eq_false_iff]
    simp [hw.ne_nil]
  rw [Frame.readAll]
  simp only [hne, Bool.false_eq_true, if_false]
  split
  · rename_i hnone
    rw [hs] at hnone
    cases hnone
  · rename_i h' payload' rest' hs'
    rw [hs] at hs'
    obtain ⟨rfl, rfl, rfl⟩ : h = h' ∧ payload = payload' ∧ rest = rest' := by simpa using hs'
    simp only [hf, he, hlen, Nat.add_assoc]
    cases Frame.readAll (place + (FrameHeader.size + payload.length)) rest <;> rfl

theorem readAll_nil (place : Nat) : readAll place [] = .ok { validLength := place } := by
  rw [readAll]
  rfl

namespace Frames

variable {place : Nat} {b : Bytes} {es : List (LogEntry × Nat)}

/-- **The entries of whole frames are read, and then what follows.** -/
theorem readAll_append (h : Frames place b es) (rest : Bytes) :
    readAll place (b ++ rest) = (readAll (place + b.length) rest).map fun more =>
      { more with entries := es ++ more.entries } := by
  induction h with
  | nil place =>
    rw [List.nil_append, List.length_nil, Nat.add_zero]
    cases readAll place rest <;> rfl
  | cons hw _ ih =>
    rw [List.append_assoc, hw.readAll, ih, List.length_append, ← Nat.add_assoc]
    cases readAll _ rest <;> rfl

/-- **The entries of whole frames are read.** -/
theorem readAll_eq (h : Frames place b es) :
    readAll place b = .ok { entries := es, validLength := place + b.length } := by
  have := h.readAll_append []
  rw [List.append_nil, readAll_nil] at this
  simpa [Except.map] using this

theorem append (h : Frames place b es) {b' : Bytes} {es' : List (LogEntry × Nat)}
    (h' : Frames (place + b.length) b' es') : Frames place (b ++ b') (es ++ es') := by
  induction h with
  | nil place => exact h'
  | cons hw _ ih =>
    rw [List.append_assoc]
    refine .cons hw (ih ?_)
    rwa [List.length_append, ← Nat.add_assoc] at h'

theorem ne_nil (h : Frames place b es) (hes : es ≠ []) : b ≠ [] := by
  cases h with
  | nil => exact absurd rfl hes
  | cons hw => exact List.append_ne_nil_of_left_ne_nil hw.ne_nil _

/-- Frames are taken apart where the entries are. -/
theorem split {more : List (LogEntry × Nat)} (h : Frames place b (es ++ more)) :
    ∃ front back, b = front ++ back ∧ Frames place front es ∧
      Frames (place + front.length) back more := by
  induction es generalizing place b with
  | nil => exact ⟨[], b, rfl, .nil place, h⟩
  | cons p rest ih =>
    cases h with
    | cons hw hr =>
      obtain ⟨front, back, rfl, hfront, hback⟩ := ih hr
      refine ⟨_, back, (List.append_assoc ..).symm, .cons hw hfront, ?_⟩
      rwa [List.length_append, ← Nat.add_assoc]

/-- The places are behind the first one and not behind the end. -/
theorem stop_mem (h : Frames place b es) :
    ∀ p ∈ es, place < p.2 ∧ p.2 ≤ place + b.length := by
  induction h with
  | nil => exact fun _ h => nomatch h
  | @cons place frame rest e es hw _ ih =>
    have hpos := List.length_pos_of_ne_nil hw.ne_nil
    intro p hp
    rw [List.length_append]
    rcases List.mem_cons.mp hp with rfl | hp
    · dsimp only
      omega
    · have := ih p hp
      omega

/-- The frames that end within the first bytes come first. -/
theorem split_at (h : Frames place b es) (n : Nat) :
    ∃ kept lost, es = kept ++ lost ∧ (∀ p ∈ kept, p.2 ≤ n) ∧ ∀ p ∈ lost, n < p.2 := by
  induction h with
  | nil => exact ⟨[], [], rfl, fun p hp => absurd hp List.not_mem_nil,
      fun p hp => absurd hp List.not_mem_nil⟩
  | @cons place frame rest e es hw hr ih =>
    by_cases hstop : place + frame.length ≤ n
    · obtain ⟨kept, lost, rfl, hkept, hlost⟩ := ih
      exact ⟨_ :: kept, lost, rfl, List.forall_mem_cons.mpr ⟨hstop, hkept⟩, hlost⟩
    · refine ⟨[], _, rfl, fun p hp => absurd hp List.not_mem_nil,
        List.forall_mem_cons.mpr ⟨Nat.lt_of_not_le hstop, fun p hp => ?_⟩⟩
      exact Nat.lt_trans (Nat.lt_of_not_le hstop) (hr.stop_mem p hp).1

/-- **Of frames that are cut off, those are left that are still whole.** -/
theorem take (h : Frames place b es) {n : Nat} (hn : n ≤ b.length) :
    ∃ m es' lost, m ≤ n ∧ es = es' ++ lost ∧ Frames place (b.take m) es' ∧
      (∀ p ∈ lost, place + n < p.2) ∧
      readAll place (b.take n) =
        .ok { entries := es', validLength := place + m, torn := decide (m < n) } := by
  induction h generalizing n with
  | nil place =>
    obtain rfl : n = 0 := Nat.le_zero.mp hn
    exact ⟨0, [], [], Nat.le_refl _, rfl, .nil _, (fun _ h => nomatch h), readAll_nil place⟩
  | @cons place frame rest e es hw hr ih =>
    rw [List.length_append] at hn
    by_cases hcut : n < frame.length
    · have hall : ∀ p ∈ (e, place + frame.length) :: es, place + n < p.2 := by
        intro p hp
        rcases List.mem_cons.mp hp with rfl | hp
        · dsimp only
          omega
        · have := hr.stop_mem p hp
          omega
      refine ⟨0, [], _, Nat.zero_le _, rfl, .nil _, hall, ?_⟩
      have htake : (frame ++ rest).take n = frame.take n :=
        List.take_append_of_le_length (Nat.le_of_lt hcut)
      rw [htake]
      rcases Nat.eq_zero_or_pos n with rfl | hpos
      · exact readAll_nil place
      · have hne : frame.take n ≠ [] := by
          rw [ne_eq, List.take_eq_nil_iff, not_or]
          exact ⟨Nat.ne_of_gt hpos, hw.ne_nil⟩
        rw [readAll_of_none hne (hw.split?_take hcut)]
        simp [hpos]
    · obtain ⟨m, es', lost, hm, rfl, hframes, hlost, hread⟩ := ih (n := n - frame.length) (by omega)
      have htake : ∀ k, (frame ++ rest).take (frame.length + k) = frame ++ rest.take k :=
        fun k => List.take_length_add_append k
      have hsplit : n = frame.length + (n - frame.length) := by omega
      refine ⟨frame.length + m, _ :: es', lost, by omega, rfl, ?_, ?_, ?_⟩
      · rw [htake]
        exact .cons hw hframes
      · intro p hp
        have := hlost p hp
        omega
      · rw [hsplit, htake, hw.readAll, hread]
        have hiff : decide (m < n - frame.length) =
            decide (frame.length + m < frame.length + (n - frame.length)) :=
          decide_eq_decide.mpr (by omega)
        simp only [Except.map, ← hiff, Nat.add_assoc]

end Frames

/-! ## Writing -/

theorem encode_ok {e : LogEntry} {b : Bytes} (hok : encode e = .ok b) :
    (LogEntry.coder.encode e).length < UInt32.size ∧
      b = FrameHeader.encode ⟨e.kind.tag, (LogEntry.coder.encode e).length,
        (crc32 (LogEntry.coder.encode e)).toNat⟩ ++ LogEntry.coder.encode e := by
  rw [encode] at hok
  dsimp only at hok
  split at hok
  · cases hok
  · exact ⟨Nat.lt_of_not_le ‹_›, (Except.ok.inj hok).symm⟩

theorem decode?_encode {h : FrameHeader} (ht : h.tag < 256) (hl : h.length < UInt32.size)
    (hc : h.checksum < UInt32.size) (rest : Bytes) :
    FrameHeader.decode? (h.encode ++ rest) = some (h, rest) := by
  have hsize : h.encode.length = FrameHeader.size := by
    simp [FrameHeader.encode, FrameHeader.size]
  rw [FrameHeader.decode?, ← hsize, Bytes.split?_append, Option.map_some]
  have h1 : h.encode.take 1 = Bytes.ofNat 1 h.tag := by
    rw [FrameHeader.encode, List.append_assoc]
    exact List.take_left' (Bytes.length_ofNat 1 _)
  have h2 : (h.encode.drop 1).take 4 = Bytes.ofNat 4 h.length := by
    rw [FrameHeader.encode, List.append_assoc, List.drop_left' (Bytes.length_ofNat 1 _)]
    exact List.take_left' (Bytes.length_ofNat 4 _)
  have h3 : h.encode.drop 5 = Bytes.ofNat 4 h.checksum := by
    rw [FrameHeader.encode]
    exact List.drop_left' (by simp)
  have ht' : h.tag % Bytes.bound 1 = h.tag := Nat.mod_eq_of_lt ht
  have hl' : h.length % Bytes.bound 4 = h.length := Nat.mod_eq_of_lt hl
  have hc' : h.checksum % Bytes.bound 4 = h.checksum := Nat.mod_eq_of_lt hc
  simp only [h1, h2, h3, Bytes.toNat_ofNat, ht', hl', hc']

/-- **The frame of an entry is whole.** -/
theorem whole_encode {e : LogEntry} (hw : e.Wordy) {b : Bytes} (hok : encode e = .ok b) :
    Whole b e := by
  obtain ⟨hlen, rfl⟩ := encode_ok hok
  have htag : e.kind.tag < 256 := by cases e.kind <;> decide
  refine ⟨_, _, decode?_encode htag hlen (UInt32.toNat_lt _) _, rfl, ?_, ?_⟩
  · rw [fault?, LogKind.ofTag?_tag]
    simp
  · have hr := LogEntry.coder_readsBack hw (Nat.lt_trans hlen (by decide)) []
    rw [List.append_nil] at hr
    simp [entry, hr]

/-- Entries with the places behind their frames, of which the first starts at a place. -/
def placed (place : Nat) : List LogEntry → List (LogEntry × Nat)
  | [] => []
  | e :: rest =>
    let stop := place + FrameHeader.size + (LogEntry.coder.encode e).length
    (e, stop) :: placed stop rest

theorem map_fst_placed (place : Nat) (entries : List LogEntry) :
    (placed place entries).map (·.1) = entries := by
  induction entries generalizing place with
  | nil => rfl
  | cons e rest ih => exact congrArg (e :: ·) (ih _)

/-- **What is written is the frames of the entries,** each behind the one before. -/
theorem frames_placed {entries : List LogEntry} (hw : ∀ e ∈ entries, e.Wordy) {b : Bytes}
    (hok : encodeAll entries = .ok b) (place : Nat) : Frames place b (placed place entries) := by
  induction entries generalizing b place with
  | nil =>
    obtain rfl := Except.ok.inj hok
    exact .nil place
  | cons e rest ih =>
    obtain ⟨frame, hframe, h⟩ := bind_eq_ok.mp hok
    obtain ⟨more, hmore, h⟩ := bind_eq_ok.mp h
    obtain rfl := Except.ok.inj h
    have hlength : place + frame.length =
        place + FrameHeader.size + (LogEntry.coder.encode e).length := by
      obtain ⟨-, rfl⟩ := encode_ok hframe
      simp only [FrameHeader.encode, List.length_append, Bytes.length_ofNat, FrameHeader.size]
      omega
    rw [placed, ← hlength]
    exact .cons (whole_encode (hw e List.mem_cons_self) hframe)
      (ih (fun e he => hw e (List.mem_cons_of_mem _ he)) hmore _)

theorem frames_encodeAll {entries : List LogEntry} (hw : ∀ e ∈ entries, e.Wordy) {b : Bytes}
    (hok : encodeAll entries = .ok b) (place : Nat) :
    ∃ es, Frames place b es ∧ es.map (·.1) = entries :=
  ⟨placed place entries, frames_placed hw hok place, map_fst_placed place entries⟩

end Frame

/-! ## Torn logs -/

namespace Frame
namespace Frames

variable {place : Nat} {b : Bytes} {es : List (LogEntry × Nat)}

/-- The last place is behind the last byte. -/
theorem getLastD_stops (h : Frames place b es) :
    (es.map (·.2)).getLastD place = place + b.length := by
  induction h with
  | nil => rfl
  | cons _ _ ih =>
    rw [List.map_cons, List.getLastD_cons, ih, List.length_append, Nat.add_assoc]

/-- **Whole frames, cut at any place,** are read up to the last frame that ends in front of it. -/
theorem readAll_cut (h : Frames place b es) {n : Nat} (hn : n ≤ b.length) :
    readAll place (b.take n) = .ok
      { entries := es.filter (·.2 ≤ place + n)
        validLength := ((es.filter (·.2 ≤ place + n)).map (·.2)).getLastD place
        torn := decide (place + n ∉ place :: es.map (·.2)) } := by
  obtain ⟨m, kept, lost, hm, rfl, hkept, hlost, hread⟩ := h.take hn
  have hlen : (b.take m).length = m := List.length_take_of_le (Nat.le_trans hm hn)
  have hstops := hkept.stop_mem
  rw [hlen] at hstops
  have hfilter : (kept ++ lost).filter (·.2 ≤ place + n) = kept := by
    rw [List.filter_append, List.filter_eq_self.mpr, List.filter_eq_nil_iff.mpr, List.append_nil]
    · intro p hp
      have := hlost p hp
      simp only [decide_eq_true_eq]
      omega
    · intro p hp
      have := hstops p hp
      exact decide_eq_true (by omega)
  have hlast : (kept.map (·.2)).getLastD place = place + m := by
    rw [hkept.getLastD_stops, hlen]
  -- nothing is torn just when the last frame that is whole ends at the cut
  have hends : (m < n) ↔ place + n ∉ place :: (kept ++ lost).map (·.2) := by
    constructor
    · intro hlt hmem
      rw [List.map_append, List.mem_cons, List.mem_append, List.mem_map, List.mem_map] at hmem
      obtain heq | ⟨p, hp, heq⟩ | ⟨p, hp, heq⟩ := hmem
      · omega
      · have := hstops p hp
        omega
      · have := hlost p hp
        omega
    · intro hnot
      refine Nat.lt_of_le_of_ne hm fun heq => hnot ?_
      subst heq
      rw [← hlast, List.getLastD_eq_getLast?]
      cases hlastp : (kept.map (·.2)).getLast? with
      | none => exact List.mem_cons_self
      | some stop =>
        refine List.mem_cons_of_mem _ ?_
        rw [List.map_append]
        exact List.mem_append_left _ (List.mem_of_getLast? hlastp)
  rw [hread, hfilter, hlast, decide_eq_decide.mpr hends]

end Frames

/-- **A torn log is recognised exactly.**  Of the frames of some entries, behind any bytes and cut at
any length that leaves these, the entries are read whose frames end in front of the cut, with the
places behind their frames; the valid length is the last of these places, or the start when there is
none; and the log is torn just when the cut is at no end of a frame and not at the start. -/
theorem readAll_torn {entries : List LogEntry} (hw : ∀ e ∈ entries, e.Wordy) {b : Bytes}
    (hok : encodeAll entries = .ok b) (front : Bytes) {n : Nat} (hstart : front.length ≤ n)
    (hn : n ≤ (front ++ b).length) :
    readAll front.length (((front ++ b).take n).drop front.length) = .ok
      { entries := (placed front.length entries).filter (·.2 ≤ n)
        validLength :=
          (((placed front.length entries).filter (·.2 ≤ n)).map (·.2)).getLastD front.length
        torn := decide (n ∉ front.length :: (placed front.length entries).map (·.2)) } := by
  obtain ⟨k, rfl⟩ := Nat.exists_eq_add_of_le hstart
  have hcut : ((front ++ b).take (front.length + k)).drop front.length = b.take k := by
    rw [List.take_length_add_append, List.drop_left]
  rw [hcut]
  refine (frames_placed hw hok front.length).readAll_cut ?_
  rw [List.length_append] at hn
  omega

/-- Two frames behind three bytes, cut inside the second one. -/
theorem readAll_torn_inside : ∃ b, encodeAll [.dropTable "t", .commit 2] = .ok b ∧
    readAll 3 ((([7, 7, 7] ++ b).take 40).drop 3) =
      .ok { entries := [(.dropTable "t", 25)], validLength := 25, torn := true } := by
  have hw : ∀ e ∈ [LogEntry.dropTable "t", .commit 2], e.Wordy :=
    List.forall_mem_cons.mpr ⟨trivial, List.forall_mem_singleton.mpr (show 2 < UInt64.size by decide)⟩
  exact ⟨_, rfl, (readAll_torn hw rfl [7, 7, 7] (by decide) (by decide +kernel)).trans rfl⟩

end Frame

/-! ## Damage in front of more data -/

/-- As many bytes that stand for the same number are the same. -/
theorem Bytes.toNat_inj {a b : Bytes} (h : a.length = b.length) (hn : toNat a = toNat b) : a = b := by
  rw [← ofNat_toNat a, h, hn, ofNat_toNat]

namespace FrameHeader

/-- The header that some bytes start with. -/
def ofBytes (b : Bytes) : FrameHeader :=
  ⟨Bytes.toNat (b.take 1), Bytes.toNat ((b.drop 1).take 4), Bytes.toNat ((b.drop 5).take 4)⟩

theorem decode?_of_le {b : Bytes} (h : size ≤ b.length) :
    decode? b = some (ofBytes b, b.drop size) := by
  have htag : (b.take size).take 1 = b.take 1 := by rw [List.take_take]; rfl
  have hlength : ((b.take size).drop 1).take 4 = (b.drop 1).take 4 := by
    rw [List.drop_take, List.take_take]
    rfl
  have hchecksum : (b.take size).drop 5 = (b.drop 5).take 4 := List.drop_take ..
  rw [decode?, Bytes.split?_of_le h, Option.map_some, ofBytes]
  dsimp only
  rw [htag, hlength, hchecksum]

/-- Bytes are the fields of a header and what is behind it. -/
theorem append_fields (b : Bytes) :
    b.take 1 ++ ((b.drop 1).take 4 ++ ((b.drop 5).take 4 ++ b.drop size)) = b := by
  have hjoin (i n : Nat) : (b.drop i).take n ++ b.drop (i + n) = b.drop i := by
    rw [← List.drop_drop, List.take_append_drop]
  rw [size, hjoin 5 4, hjoin 1 4, List.take_append_drop]

/-- Bytes that start with the same header and go on in the same way are the same. -/
theorem eq_of_ofBytes {a b : Bytes} (ha : size ≤ a.length) (hb : size ≤ b.length)
    (h : ofBytes a = ofBytes b) (hrest : a.drop size = b.drop size) : a = b := by
  rw [ofBytes, ofBytes, FrameHeader.mk.injEq] at h
  obtain ⟨htag, hlength, hchecksum⟩ := h
  have hfield : ∀ {i n : Nat}, i + n ≤ size →
      Bytes.toNat ((a.drop i).take n) = Bytes.toNat ((b.drop i).take n) →
        (a.drop i).take n = (b.drop i).take n := fun hin hn =>
    Bytes.toNat_inj (by simp only [List.length_take, List.length_drop]; omega) hn
  have hfirst : a.take 1 = b.take 1 := hfield (i := 0) (by decide) htag
  rw [← append_fields a, ← append_fields b, hfirst, hfield (by decide) hlength,
    hfield (by decide) hchecksum, hrest]

end FrameHeader

namespace Frame

variable {place : Nat} {b frame bad front rest : Bytes} {e : LogEntry} {es : List (LogEntry × Nat)}

/-- **A frame is split off** of bytes that are as many as its header says. -/
theorem split?_of_length (hsize : FrameHeader.size ≤ b.length)
    (hlength : (FrameHeader.ofBytes b).length = b.length - FrameHeader.size) (rest : Bytes) :
    split? (b ++ rest) = some (FrameHeader.ofBytes b, b.drop FrameHeader.size, rest) := by
  obtain ⟨head, hb, -, hall⟩ := decode?_eq_some (FrameHeader.decode?_of_le hsize)
  have hpayload := Bytes.split?_append (b.drop FrameHeader.size) rest
  rw [List.length_drop, ← hlength] at hpayload
  conv => lhs; rw [hb]
  simp only [split?, List.append_assoc, hall, Option.bind_eq_bind, Option.bind_some, hpayload]

/-- **A frame with a fault is refused** when there is more behind it. -/
theorem readAll_of_fault {h : FrameHeader} {payload : Bytes} {fault : LogFault}
    (hs : split? b = some (h, payload, rest)) (hrest : rest ≠ [])
    (hfault : fault? h payload = some fault ∨
      fault? h payload = none ∧ entry h payload = .error fault) :
    readAll place b = .error (.corruption place fault) := by
  have hne : b.isEmpty = false := by
    rw [List.isEmpty_eq_false_iff]
    rintro rfl
    cases hs
  have hmore : rest.isEmpty = false := by rwa [List.isEmpty_eq_false_iff]
  rw [readAll]
  simp only [hne, Bool.false_eq_true, if_false]
  split
  · rename_i hnone
    rw [hs] at hnone
    cases hnone
  · rename_i h' payload' rest' hs'
    obtain ⟨rfl, rfl, rfl⟩ : h = h' ∧ payload = payload' ∧ rest = rest' := by
      simpa using hs.symm.trans hs'
    obtain hfault | ⟨hnone, hentry⟩ := hfault
    · simp [hfault, hmore]
    · simp [hnone, hentry]

/-- Bytes in place of those of a frame, as many of them and with the same length in the header.  Not
both the checksum and the payload are other ones, and another payload has another CRC-32. -/
structure Damages (frame bad : Bytes) : Prop where
  length_eq : bad.length = frame.length
  ne : bad ≠ frame
  field_eq : (bad.drop 1).take 4 = (frame.drop 1).take 4
  one_eq : (bad.drop 5).take 4 = (frame.drop 5).take 4 ∨
    bad.drop FrameHeader.size = frame.drop FrameHeader.size
  crc_ne : bad.drop FrameHeader.size ≠ frame.drop FrameHeader.size →
    crc32 (bad.drop FrameHeader.size) ≠ crc32 (frame.drop FrameHeader.size)

/-- A whole frame by its header. -/
theorem Whole.ofBytes (hw : Whole frame e) : FrameHeader.size ≤ frame.length ∧
    (FrameHeader.ofBytes frame).length = frame.length - FrameHeader.size ∧
    fault? (FrameHeader.ofBytes frame) (frame.drop FrameHeader.size) = none ∧
    entry (FrameHeader.ofBytes frame) (frame.drop FrameHeader.size) = .ok e := by
  obtain ⟨h, payload, hd, hlen, hf, he⟩ := hw
  obtain ⟨head, rfl, hhead, -⟩ := decode?_eq_some hd
  have hsize : FrameHeader.size ≤ (head ++ payload).length := by
    rw [List.length_append, hhead]
    exact Nat.le_add_right _ _
  rw [FrameHeader.decode?_of_le hsize, Option.some.injEq, Prod.mk.injEq] at hd
  obtain ⟨rfl, hpayload⟩ := hd
  rw [hpayload]
  refine ⟨hsize, ?_, hf, he⟩
  rw [← hlen, List.length_append, hhead, Nat.add_sub_cancel_left]

theorem checksum_of_fault? {h : FrameHeader} {payload : Bytes} (hf : fault? h payload = none) :
    (crc32 payload).toNat = h.checksum := by
  by_contra hne
  rw [fault?] at hf
  split at hf <;> cases hf

theorem of_entry {h : FrameHeader} {payload : Bytes} (he : entry h payload = .ok e) :
    ∃ more, LogEntry.coder.decode payload = some (e, more) ∧ e.kind.tag = h.tag := by
  rw [entry] at he
  split at he
  · cases he
  · rename_i found more hdecode
    split at he
    · obtain rfl := Except.ok.inj he
      exact ⟨more, hdecode, ‹_›⟩
    · cases he

/-- **A frame that was damaged has a fault.** -/
theorem Damages.fault (hd : Damages frame bad) (hw : Whole frame e) :
    ∃ fault, fault? (FrameHeader.ofBytes bad) (bad.drop FrameHeader.size) = some fault ∨
      fault? (FrameHeader.ofBytes bad) (bad.drop FrameHeader.size) = none ∧
        entry (FrameHeader.ofBytes bad) (bad.drop FrameHeader.size) = .error fault := by
  obtain ⟨hsize, -, hf, he⟩ := hw.ofBytes
  have hsum := checksum_of_fault? hf
  cases hkind : LogKind.ofTag? (FrameHeader.ofBytes bad).tag with
  | none => exact ⟨.unknownKind _, .inl (by rw [fault?, hkind]; rfl)⟩
  | some kind =>
    by_cases hcrc : (crc32 (bad.drop FrameHeader.size)).toNat = (FrameHeader.ofBytes bad).checksum
    · -- The checksum agrees, so that the payload is the same and the kind is another one.
      have hpayload : bad.drop FrameHeader.size = frame.drop FrameHeader.size := by
        by_contra hne
        have hfield := congrArg Bytes.toNat (hd.one_eq.resolve_right hne)
        exact hd.crc_ne hne (UInt32.toNat_inj.mp (hcrc.trans (hfield.trans hsum.symm)))
      rw [hpayload] at hcrc ⊢
      have htag : (FrameHeader.ofBytes frame).tag ≠ (FrameHeader.ofBytes bad).tag := fun htag =>
        hd.ne <| FrameHeader.eq_of_ofBytes (hd.length_eq ▸ hsize) hsize ((FrameHeader.mk.injEq ..).mpr
          ⟨htag.symm, congrArg Bytes.toNat hd.field_eq, hcrc.symm.trans hsum⟩) hpayload
      obtain ⟨more, hdecode, hkind'⟩ := of_entry he
      refine ⟨.kindMismatch (FrameHeader.ofBytes bad).tag e.kind, .inr ⟨?_, ?_⟩⟩
      · rw [fault?, hkind, if_neg (by simp), if_neg (not_not.mpr hcrc)]
      · rw [entry, hdecode]
        exact if_neg (hkind' ▸ htag)
    · exact ⟨.checksum, .inl (by rw [fault?, hkind, if_neg (by simp), if_pos hcrc])⟩

/-- **Damage to a frame with more behind it** is refused there, as long as the length in the header is
what it was.  A frame that is longer than what there is, by its header, is taken for one that is torn,
and so is all that is behind it. -/
theorem Frames.readAll_damaged (hf : Frames place front es) (hw : Whole frame e) (hrest : rest ≠ []) :
    (Damages frame bad → ∃ fault, readAll place (front ++ (bad ++ rest)) =
      .error (.corruption (place + front.length) fault)) ∧
    (bad.length = frame.length →
      (bad ++ rest).length < FrameHeader.size + (FrameHeader.ofBytes bad).length →
        readAll place (front ++ (bad ++ rest)) =
          .ok { entries := es, validLength := place + front.length, torn := true }) := by
  obtain ⟨hsize, hlength, -, -⟩ := hw.ofBytes
  refine ⟨fun hd => ?_, fun hlen hlong => ?_⟩
  · obtain ⟨fault, hfault⟩ := hd.fault hw
    have hfield : (FrameHeader.ofBytes bad).length = bad.length - FrameHeader.size := by
      rw [hd.length_eq, ← hlength]
      exact congrArg Bytes.toNat hd.field_eq
    refine ⟨fault, ?_⟩
    have hs := split?_of_length (hd.length_eq ▸ hsize) hfield rest
    rw [hf.readAll_append, readAll_of_fault hs hrest hfault]
    rfl
  · have hnone : split? (bad ++ rest) = none := by
      obtain ⟨head, hb, hhead, hall⟩ :=
        decode?_eq_some (FrameHeader.decode?_of_le (hlen ▸ hsize : FrameHeader.size ≤ bad.length))
      conv => lhs; rw [hb]
      have hshort : (bad.drop FrameHeader.size ++ rest).length < (FrameHeader.ofBytes bad).length := by
        rw [List.length_append] at hlong ⊢
        rw [List.length_drop]
        omega
      simp only [split?, List.append_assoc, hall, Option.bind_eq_bind, Option.bind_some,
        Bytes.split?_of_lt hshort, Option.bind_none]
    rw [hf.readAll_append, readAll_of_none (List.append_ne_nil_of_right_ne_nil _ hrest) hnone]
    simp [Except.map]

/-- The length in a header is not in its checksum, so a commit can be lost with the damage before it. -/
example : ∃ frame rest, encode (.commit 1) = .ok frame ∧ encode (.commit 2) = .ok rest ∧
    readAll 0 (frame.set 2 1 ++ rest) = .ok { torn := true } := by
  have hw := whole_encode (e := .commit 1) (show 1 < UInt64.size by decide) rfl
  refine ⟨_, _, rfl, rfl, ?_⟩
  rw [← List.nil_append (List.set _ _ _ ++ _)]
  refine ((Frames.nil 0).readAll_damaged hw ?_).2 ?_ ?_ <;> decide +kernel

end Frame
end ColumnStore
