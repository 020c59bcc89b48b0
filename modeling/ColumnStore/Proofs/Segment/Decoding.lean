/-
# What is decoded from a segment

Whatever bytes are decoded as a segment of a type, the vector has values of that type and marks for
all of its slots (`SegmentImage.decode_sound`).  So what is read from blocks can be copied.

No bytes make a position be used that lies outside of them: the lengths in the header, the bitmap,
the places of texts and the value that stands for all are checked in front of every use.  So either
a vector is decoded, or the bytes are damaged, or the type is one that is not stored
(`SegmentImage.decodeBy_outcome`).
-/

import ColumnStore.Proofs.Segment.Bitmaps
import ColumnStore.Proofs.Storage.Honesty

namespace ColumnStore

/-- What is read from bytes is of the type that it is read as. -/
theorem Scalar.fits_ofFixed {t : ColumnType} (h : t.storage.isFixedWidth = true) (b : Bytes) :
    (ofFixed t b).fits t = true ∧ (ofFixed t b).isNull = false := by
  cases t <;> first | exact ⟨rfl, rfl⟩ | cases h

namespace SegmentImage

variable {t : ColumnType}

/-- **The slots of a body** are read if they fill it. -/
theorem fixedValues?_isSome {width count : Nat} {b : Bytes} (h : b.length = count * width) :
    ∃ values, fixedValues? t width count b = some values := by
  induction count generalizing b with
  | zero =>
    obtain rfl := List.eq_nil_of_length_eq_zero (h.trans (Nat.zero_mul _))
    exact ⟨[], rfl⟩
  | succ count ih =>
    rw [Nat.succ_mul] at h
    obtain ⟨values, hvalues⟩ := ih (b := b.drop width) (by rw [List.length_drop]; omega)
    rw [fixedValues?, Bytes.split?_of_le (by omega)]
    exact ⟨_, by simp only [Option.bind_eq_bind, Option.bind_some, hvalues]; rfl⟩

theorem fixedValues?_eq_some {width count : Nat} {b : Bytes} {values : List Scalar}
    (h : fixedValues? t width count b = some values) :
    values.length = count ∧ ∀ x ∈ values, ∃ part, x = .ofFixed t part := by
  induction count generalizing b values with
  | zero =>
    rw [fixedValues?] at h
    split at h
    · obtain rfl := Option.some.inj h
      exact ⟨rfl, fun x hx => absurd hx List.not_mem_nil⟩
    · cases h
  | succ count ih =>
    rw [fixedValues?] at h
    obtain ⟨⟨slot, rest⟩, -, h⟩ := Option.bind_eq_some_iff.mp h
    obtain ⟨more, hmore, h⟩ := Option.bind_eq_some_iff.mp h
    obtain rfl := Option.some.inj h
    obtain ⟨hlen, hall⟩ := ih hmore
    refine ⟨by rw [List.length_cons, hlen], fun x hx => ?_⟩
    rcases List.mem_cons.mp hx with rfl | hx
    · exact ⟨slot, rfl⟩
    · exact hall x hx

theorem length_words (count : Nat) (b : Bytes) : (words count b).length = count := by
  induction count generalizing b with
  | zero => rfl
  | succ count ih => rw [words, List.length_cons, ih]

/-! ## What decoding comes to -/

section Comes

variable {α β : Type}

@[simp] theorem within_eq_ok {x : Option α} {a : α} : within x = .ok a ↔ x = some a := by
  cases x <;> simp [within]

/-- A result is a value with a property, or damage that was found, or the refusal of a type that is
not stored.  No position is used that lies outside the data. -/
def Comes (t : ColumnType) (P : α → Prop) (r : Except StorageError α) : Prop :=
  (∃ a, r = .ok a ∧ P a) ∨ (∃ fault, r = damaged fault) ∨
    t.isNested = true ∧ r = .error (.unsupportedType t)

theorem comes_ok {P : α → Prop} {a : α} (h : P a) : Comes t P (.ok a) := .inl ⟨a, rfl, h⟩

theorem comes_damaged {P : α → Prop} (fault : Fault) : Comes t P (damaged fault) :=
  .inr (.inl ⟨fault, rfl⟩)

/-- Damage that is found stops what would come next. -/
theorem comes_stop {P : β → Prop} (fault : Fault) (f : α → Except StorageError β) :
    Comes t P (damaged fault >>= f) := comes_damaged fault

theorem comes_within {P : α → Prop} {x : Option α} {a : α} (hx : x = some a) (h : P a) :
    Comes t P (within x) := by
  rw [hx]
  exact comes_ok h

/-- **A chain comes to what its parts come to.** -/
theorem Comes.bind {P : α → Prop} {Q : β → Prop} {x : Except StorageError α}
    {f : α → Except StorageError β} (h : Comes t P x) (hf : ∀ a, P a → Comes t Q (f a)) :
    Comes t Q (x >>= f) := by
  obtain ⟨a, rfl, ha⟩ | ⟨fault, rfl⟩ | ⟨ht, rfl⟩ := h
  · exact hf a ha
  · exact comes_damaged fault
  · exact .inr (.inr ⟨ht, rfl⟩)

theorem Comes.imp {P Q : α → Prop} {r : Except StorageError α} (h : Comes t P r)
    (hpq : ∀ a, P a → Q a) : Comes t Q r := by
  obtain ⟨a, rfl, ha⟩ | hr := h
  · exact comes_ok (hpq a ha)
  · exact .inr hr

theorem Comes.of_ok {P : α → Prop} {r : Except StorageError α} (h : Comes t P r) {a : α}
    (ha : r = .ok a) : P a := by
  obtain ⟨b, rfl, hb⟩ | ⟨fault, rfl⟩ | ⟨-, rfl⟩ := h
  · exact Except.ok.inj ha ▸ hb
  · cases ha
  · cases ha

end Comes

/-- Values of a type that is stored, one for each row. -/
structure AllOf (t : ColumnType) (count : Nat) (values : List Scalar) : Prop where
  flat : t.isNested = false
  length : values.length = count
  fits : ∀ x ∈ values, x.fits t = true ∧ x.isNull = false

/-- **Texts are read where they lie,** one for each place where one ends. -/
theorem comes_textValues {size start : Nat} {data : Bytes} (stops : List Nat)
    (h : data.length = size - start) :
    Comes t (AllOf .varchar stops.length) (textValues size start data stops) := by
  induction stops generalizing start data with
  | nil =>
    rw [textValues]
    split
    · exact comes_ok ⟨rfl, rfl, fun x hx => absurd hx List.not_mem_nil⟩
    · exact comes_damaged _
  | cons stop rest ih =>
    rw [textValues]
    dsimp only
    split
    · exact comes_stop _ _
    · rename_i hrange
      have hroom : stop - start ≤ data.length := by omega
      rw [Bytes.split?_of_le hroom]
      dsimp only [within, ok_bind]
      split
      · exact comes_damaged _
      · refine (ih (by rw [List.length_drop]; omega)).bind fun values hvalues => comes_ok ?_
        refine ⟨rfl, by rw [List.length_cons, hvalues.length, List.length_cons], fun x hx => ?_⟩
        rcases List.mem_cons.mp hx with rfl | hx
        · exact ⟨rfl, rfl⟩
        · exact hvalues.fits x hx

theorem comes_textBody (count : Nat) (body : Bytes) :
    Comes t (AllOf .varchar count) (textBody count body) := by
  rw [textBody]
  split
  · exact comes_damaged _
  · rw [List.splitAt_eq]
    dsimp only
    generalize Bytes.toNat _ = start
    have hread := comes_textValues (t := t)
      (words count ((body.take (4 * (count + 1))).drop 4))
      (List.length_drop (i := start) (l := body.drop (4 * (count + 1))))
    rw [length_words] at hread
    exact hread

/-- **As many values as rows are read,** all of the type. -/
theorem comes_plainValues (t : ColumnType) (count : Nat) (body : Bytes) :
    Comes t (AllOf t count) (plainValues t count body) := by
  unfold plainValues
  split
  · exact .inr (.inr ⟨rfl, rfl⟩)
  · exact comes_textBody count body
  · rename_i hlist hvarchar
    have hfixed : t.storage.isFixedWidth = true := by
      cases t <;> first | rfl | exact absurd rfl hvarchar | exact absurd rfl (hlist _)
    dsimp only
    split
    · exact comes_damaged _
    · rename_i hlen
      obtain ⟨values, hvalues⟩ := fixedValues?_isSome (t := t) (not_not.mp hlen)
      obtain ⟨hcount, hall⟩ := fixedValues?_eq_some hvalues
      have hflat : t.isNested = false := by
        cases t <;> first | rfl | exact absurd rfl (hlist _)
      refine comes_within hvalues ⟨hflat, hcount, fun x hx => ?_⟩
      obtain ⟨part, rfl⟩ := hall x hx
      exact Scalar.fits_ofFixed hfixed part

/-- **The one value of a body** is of the type. -/
theorem comes_constantValue (t : ColumnType) (body : Bytes) :
    Comes t (fun x => AllOf t 1 [x]) (constantValue t body) := by
  have hfirst : ∀ values, AllOf t 1 values →
      Comes t (fun x => AllOf t 1 [x]) (within values.head?) := by
    intro values hvalues
    obtain ⟨x, rfl⟩ := List.length_eq_one_iff.mp hvalues.length
    exact comes_ok hvalues
  unfold constantValue
  dsimp only
  split
  · split
    · exact comes_stop _ _
    · split
      · exact comes_stop _ _
      · exact (comes_textBody 1 _).bind hfirst
  · exact (comes_plainValues t 1 body).bind hfirst

theorem get?_vectorOf {validity : Validity} {values : List Scalar} {i : Nat} :
    (vectorOf t validity values).get? i =
      match validity.get? i with
      | none => none
      | some false => some .null
      | some true => values[i]? := by
  rw [ValueVector.get?, vectorOf, ValueVector.validity]
  cases validity.get? i with
  | none => rfl
  | some b => cases b <;> simp [ValueVector.raw?]

/-- A vector whose marks are a mask: a value of its type in every slot that is not `NULL`. -/
structure Filled (t : ColumnType) (validity : Validity) (v : ValueVector) : Prop where
  type : v.type = t
  capacity : v.capacity = validity.capacity
  sound : t.isNested = false → v.Sound
  marks : ∀ i < validity.capacity, ∀ valid, validity.get? i = some valid →
    ∃ x, v.get? i = some x ∧ x.isNull = !valid

theorem filled_vectorOf {validity : Validity} {values : List Scalar} (hv : validity.Sound)
    (h : AllOf t validity.capacity values) : Filled t validity (vectorOf t validity values) where
  type := rfl
  capacity := by simpa [vectorOf, ValueVector.capacity] using h.length
  sound _ := ⟨h.flat, hv, by simpa using h.length.symm, fun x hm => h.fits x (List.mem_toArray.mp hm)⟩
  marks i hi valid hvalid := by
    rw [get?_vectorOf, hvalid]
    have hi' : i < values.length := h.length.symm ▸ hi
    cases valid with
    | false => exact ⟨.null, rfl, rfl⟩
    | true => exact ⟨_, List.getElem?_eq_getElem hi', (h.fits _ (List.getElem_mem hi')).2⟩

/-- **One value in every row that is not `NULL`.** -/
theorem decodeConstant_of_value {validity : Validity} {body : Bytes} {x : Scalar}
    (hv : validity.Sound) (hbody : body ≠ []) (hx : constantValue t body = .ok x) :
    ∃ values, decodeConstant t validity.capacity validity body =
        .ok (vectorOf t validity values) ∧
      values.length = validity.capacity ∧ (∀ y ∈ values, y = x ∨ y = .blank t) ∧
      ∀ i < validity.capacity, validity.get? i = some true → values[i]? = some x := by
  obtain ⟨marks, hmarks, hlen, hget⟩ := Validity.mapM_get?_isSome hv (Nat.le_refl _)
  refine ⟨marks.map fun valid => if valid then x else Scalar.blank t, ?_, by simpa using hlen,
    fun y hy => ?_, fun i hi hvalid => ?_⟩
  · rw [decodeConstant, if_neg (mt List.isEmpty_iff.mp hbody), hx, ok_bind, hmarks]
    rfl
  · obtain ⟨valid, -, rfl⟩ := List.mem_map.mp hy
    cases valid with
    | true => exact .inl rfl
    | false => exact .inr rfl
  · rw [List.getElem?_map, hget i hi, hvalid]
    rfl

/-- **The rows of a constant body:** all `NULL`, or one value in those that are not. -/
theorem comes_decodeConstant {validity : Validity} (hv : validity.Sound) (t : ColumnType)
    (body : Bytes) :
    Comes t (Filled t validity) (decodeConstant t validity.capacity validity body) := by
  by_cases hbody : body = []
  · obtain ⟨nulls, hnulls⟩ := Validity.countNull?_isSome hv (Nat.le_refl _)
    rw [decodeConstant, hbody, if_pos List.isEmpty_nil, hnulls]
    dsimp only [within, ok_bind]
    split
    · exact comes_stop _ _
    · rename_i hall
      obtain rfl := not_not.mp hall
      refine comes_ok ⟨by simp, by simp, fun ht => ?_, fun i hi valid hvalid => ?_⟩
      · have hnew := ValueVector.sound_new ht validity.capacity
        cases t with
        | list => cases ht
        | _ => exact ⟨rfl, hv, by simp, hnew.2.2.2⟩
      · rw [ValueVector.get?, ValueVector.validity_withValidity,
          Validity.get?_of_countNull?_eq hnulls hi]
        have hfalse := Validity.get?_of_countNull?_eq hnulls hi
        obtain rfl := Option.some.inj (hvalid.symm.trans hfalse)
        exact ⟨.null, rfl, rfl⟩
  · obtain ⟨x, hx, hfit⟩ | ⟨fault, hfault⟩ | ⟨ht, hrefused⟩ := comes_constantValue t body
    · obtain ⟨values, hok, hlen, hall, -⟩ := decodeConstant_of_value hv hbody hx
      rw [hok]
      refine comes_ok (filled_vectorOf hv ⟨hfit.flat, hlen, fun y hy => ?_⟩)
      obtain rfl | rfl := hall y hy
      · exact hfit.fits _ List.mem_cons_self
      · exact ⟨Scalar.fits_blank t, ValueVector.blank_isNull t⟩
    · rw [decodeConstant, if_neg (mt List.isEmpty_iff.mp hbody), hfault]
      exact comes_stop _ _
    · rw [decodeConstant, if_neg (mt List.isEmpty_iff.mp hbody), hrefused]
      exact .inr (.inr ⟨ht, rfl⟩)

/-! ## The parts of a segment -/

/-- The bytes of the bitmap behind a header. -/
def bitmapLength (h : SegmentHeader) : Nat := if h.hasNulls then (h.rows + 7) / 8 else 0

/-- Whether the bytes behind a header mark a row `NULL`. -/
def marksNull (h : SegmentHeader) (rest : Bytes) (i : Nat) : Bool :=
  h.hasNulls && (Validity.bit? rest i).getD false

/-- A bit in the front of some bytes is a bit of them. -/
theorem bit?_take {b : Bytes} {n i : Nat} (h : i < 8 * n) :
    Validity.bit? (b.take n) i = Validity.bit? b i := by
  rw [Validity.bit?, Validity.bit?, List.getElem?_take_of_lt (by omega)]

/-- The mask of the rows of a segment and the bytes behind the bitmap. -/
structure Masks (h : SegmentHeader) (b : Bytes) (found : Validity × Bytes) : Prop where
  sound : found.1.Sound
  capacity : found.1.capacity = h.rows
  marks : ∀ i < h.rows, found.1.get? i = some !marksNull h b i
  length : b.length = bitmapLength h + found.2.length

/-- **The bitmap is read** if it is there. -/
theorem comes_decodeNulls (t : ColumnType) (h : SegmentHeader) (b : Bytes) :
    Comes t (Masks h b) (decodeNulls h b) := by
  rw [decodeNulls]
  cases hn : h.hasNulls with
  | false =>
    refine comes_ok ⟨Validity.sound_new _, rfl, fun i _ => ?_, ?_⟩
    · rw [marksNull, hn]
      rfl
    · rw [bitmapLength, hn]
      exact (Nat.zero_add _).symm
  | true =>
    rw [if_pos rfl]
    rcases Nat.lt_or_ge b.length ((h.rows + 7) / 8) with hshort | hlong
    · rw [Bytes.split?_of_lt hshort]
      exact comes_damaged _
    · rw [Bytes.split?_of_le hlong]
      have hbits : h.rows ≤ 8 * (b.take ((h.rows + 7) / 8)).length := by
        rw [List.length_take_of_le hlong]
        omega
      obtain ⟨validity, hread, hs, hc, hget⟩ := Validity.ofNullBitmap?_eq hbits h.rows
      dsimp only
      rw [hread]
      refine comes_ok ⟨hs, hc.trans (Nat.max_self _), fun i hi => ?_, ?_⟩
      · have hbit : i < 8 * b.length := by omega
        obtain ⟨isNull, hbit⟩ := Validity.bit?_isSome hbit
        rw [hget i hi, bit?_take (by omega), marksNull, hn, hbit]
        rfl
      · rw [bitmapLength, if_pos hn, List.length_drop]
        omega

/-- **A body is as long as the header says.** -/
theorem comes_decodeBody (t : ColumnType) (codec : Option Codec) (h : SegmentHeader)
    (payload : Bytes) :
    Comes t (fun body => body.length = h.bodyLength ∧ (codec = none → body = payload))
      (decodeBody codec h payload) := by
  have hlength : ∀ body : Bytes, (codec = none → body = payload) →
      Comes t (fun body => body.length = h.bodyLength ∧ (codec = none → body = payload))
        (if body.length ≠ h.bodyLength then
          damaged (.bodyLength body.length h.bodyLength) >>= fun _ : Unit => .ok body
        else .ok body) := by
    intro body hbody
    split
    · exact comes_stop _ _
    · exact comes_ok ⟨not_not.mp ‹_›, hbody⟩
  unfold decodeBody
  dsimp only
  split
  · exact hlength payload fun _ => rfl
  · split
    · exact hlength _ fun hnone => by cases hnone
    · exact comes_stop _ _

/-! ## Whole segments -/

end SegmentImage

/-- **Only the tag of a storage class is read as it.** -/
theorem StorageClass.eq_tag_of_ofTag? {tag : UInt8} {c : StorageClass} (h : ofTag? tag = some c) :
    tag = c.tag := by
  have htags : [varBytes, i64, u64, f64, bool, i8, i16, i32, f32, list].map (fun c => c.tag.toNat) =
      List.range 10 := rfl
  have hlt : tag.toNat < 10 := (List.getElem?_eq_some_iff.mp h).1
  have hmap := congrArg (·[tag.toNat]?) htags
  rw [ofTag?] at h
  rw [List.getElem?_map, h, List.getElem?_range hlt] at hmap
  exact UInt8.toNat_inj.mp (Option.some.inj hmap).symm

/-- A header is read from the first bytes, whatever follows them. -/
theorem SegmentHeader.decode?_eq_some {b rest : Bytes} {h : SegmentHeader}
    (hd : decode? b = some (h, rest)) : b.length = length + rest.length ∧
      ∀ b', b'.take length = b.take length → decode? b' = some (h, b'.drop length) := by
  rw [decode?] at hd
  cases hs : Bytes.split? length b with
  | none =>
    rw [hs] at hd
    cases hd
  | some parts =>
    obtain ⟨head, rest'⟩ := parts
    obtain ⟨rfl, hlen⟩ := Bytes.split?_eq_some.mp hs
    have hsplit : ∀ b', b'.take length = (head ++ rest').take length →
        Bytes.split? length b' = some (head, b'.drop length) := by
      intro b' hb'
      rw [List.take_left' hlen] at hb'
      refine Bytes.split?_eq_some.mpr ⟨?_, hlen⟩
      rw [← hb', List.take_append_drop]
    rw [hs] at hd
    obtain _ | ⟨storage, _ | ⟨flags, _ | ⟨scheme, _ | ⟨reserved, numbers⟩⟩⟩⟩ := head
    · cases hd
    · cases hd
    · cases hd
    · cases hd
    · obtain ⟨⟨hasNulls, compressed⟩, hflags, hd⟩ := Option.bind_eq_some_iff.mp hd
      obtain ⟨rfl, rfl⟩ := Prod.mk.inj (Option.some.inj hd)
      refine ⟨by rw [List.length_append, hlen], fun b' hb' => ?_⟩
      rw [decode?, hsplit b' hb']
      simp only [hflags, Option.bind_eq_bind, Option.bind_some]
      rfl

theorem SegmentHeader.decode?_of_lt {b : Bytes} (h : b.length < length) : decode? b = none := by
  rw [decode?, Bytes.split?_of_lt h]

namespace SegmentImage

/-- What a vector has from the bytes that it was decoded from: the header, and the bytes behind it,
with a value in every row that is not marked `NULL`. -/
structure Read (b : Bytes) (t : ColumnType) (h : SegmentHeader) (rest : Bytes) (scheme : Scheme)
    (v : ValueVector) : Prop where
  header : SegmentHeader.decode? b = some (h, rest)
  storage : h.storage = t.storage.tag
  named : Scheme.ofTag? h.scheme = some scheme
  type : v.type = t
  capacity : v.capacity = h.rows
  sound : t.isNested = false → v.Sound
  nulls : ∀ i < h.rows, ∃ x, v.get? i = some x ∧ x.isNull = marksNull h rest i
  length : scheme = .uncompressed ∨ scheme = .constant →
    b.length = SegmentHeader.length + bitmapLength h + h.bodyLength

theorem ofScheme?_eq_none {codecs : Codecs} {level : Int} {scheme : Scheme}
    (h : scheme = .uncompressed ∨ scheme = .constant) : codecs.ofScheme? level scheme = none := by
  obtain rfl | rfl := h <;> rfl

/-- **A segment is read or refused.** -/
theorem comes_decodeBy (codecs : Codecs) (b : Bytes) (t : ColumnType) :
    Comes t (fun v => ∃ h rest scheme, Read b t h rest scheme v) (decodeBy codecs b t) := by
  rw [decodeBy]
  cases hh : SegmentHeader.decode? b with
  | none => exact comes_damaged _
  | some found =>
    obtain ⟨h, rest⟩ := found
    dsimp only
    split
    · exact comes_stop _ _
    rename_i hstorage
    cases hscheme : Scheme.ofTag? h.scheme with
    | none => exact comes_damaged _
    | some scheme =>
      refine (comes_decodeNulls t h rest).bind fun found hmasks => ?_
      obtain ⟨validity, payload⟩ := found
      refine (comes_decodeBody t _ h payload).bind fun body hbody => ?_
      have hread : ∀ v, Filled t validity v → ∃ h rest scheme, Read b t h rest scheme v := by
        intro v hv
        have hrows : validity.capacity = h.rows := hmasks.capacity
        refine ⟨h, rest, scheme, hh, StorageClass.eq_tag_of_ofTag? (not_not.mp hstorage), hscheme,
          hv.type, hv.capacity.trans hrows, hv.sound, fun i hi => ?_, fun hplain => ?_⟩
        · obtain ⟨x, hx, hn⟩ := hv.marks i (hrows ▸ hi) _ (hmasks.marks i hi)
          exact ⟨x, hx, hn.trans (Bool.not_not _)⟩
        · have hpayload : payload.length = h.bodyLength :=
            hbody.2 (ofScheme?_eq_none hplain) ▸ hbody.1
          have hbitmap : rest.length = bitmapLength h + payload.length := hmasks.length
          rw [(SegmentHeader.decode?_eq_some hh).1, hbitmap, hpayload, Nat.add_assoc]
      have hrows : validity.capacity = h.rows := hmasks.capacity
      rw [← hrows]
      split
      · exact (comes_decodeConstant hmasks.sound t body).imp hread
      · exact (comes_plainValues t validity.capacity body).bind fun values hvalues =>
          comes_ok (hread _ (filled_vectorOf hmasks.sound hvalues))

/-- **What is decoded is of the type that it is decoded as.** -/
theorem decode_sound {b : Bytes} {v : ValueVector} (ht : t.isNested = false)
    (h : decode b t = .ok v) : v.Sound ∧ v.type = t := by
  obtain ⟨_, _, _, hread⟩ := (comes_decodeBy _ b t).of_ok h
  exact ⟨hread.sound ht, hread.type⟩

/-- **A segment that is not compressed has just the bytes that its header says.** -/
theorem damaged_of_length {codecs : Codecs} {b rest : Bytes} {h : SegmentHeader} {scheme : Scheme}
    (hh : SegmentHeader.decode? b = some (h, rest)) (hscheme : Scheme.ofTag? h.scheme = some scheme)
    (hplain : scheme = .uncompressed ∨ scheme = .constant)
    (hlen : b.length ≠ SegmentHeader.length + bitmapLength h + h.bodyLength) (t : ColumnType) :
    ∃ fault, decodeBy codecs b t = damaged fault := by
  rw [decodeBy, hh]
  dsimp only
  split
  · exact ⟨_, rfl⟩
  rw [hscheme]
  dsimp only
  rw [ofScheme?_eq_none hplain]
  -- neither the bitmap nor the length of the body is read by the type
  obtain ⟨⟨validity, payload⟩, hnulls, hmasks⟩ | ⟨fault, hfault⟩ | ⟨hnested, -⟩ :=
    comes_decodeNulls .boolean h rest
  · obtain ⟨body, -, hbody⟩ | ⟨fault, hfault⟩ | ⟨hnested, -⟩ :=
      comes_decodeBody .boolean none h payload
    · have hpayload : payload.length = h.bodyLength := hbody.2 rfl ▸ hbody.1
      have hbitmap : rest.length = bitmapLength h + payload.length := hmasks.length
      rw [(SegmentHeader.decode?_eq_some hh).1, hbitmap, hpayload, Nat.add_assoc] at hlen
      exact absurd rfl hlen
    · exact ⟨fault, by rw [hnulls, ok_bind, hfault]; rfl⟩
    · cases hnested
  · exact ⟨fault, by rw [hfault]; rfl⟩
  · cases hnested

/-- **A part of a segment that is not compressed is damaged,** and so is one with more bytes behind
it. -/
theorem damaged_of_prefix {codecs : Codecs} {b b' rest : Bytes} {h : SegmentHeader}
    {scheme : Scheme} {v : ValueVector} (hread : Read b t h rest scheme v)
    (hplain : scheme = .uncompressed ∨ scheme = .constant) (hb' : b' <+: b ∨ b <+: b')
    (hne : b' ≠ b) (t' : ColumnType) : ∃ fault, decodeBy codecs b' t' = damaged fault := by
  rcases Nat.lt_or_ge b'.length SegmentHeader.length with hshort | hlong
  · rw [decodeBy, SegmentHeader.decode?_of_lt hshort]
    exact ⟨_, rfl⟩
  · obtain ⟨hlen, hsame⟩ := SegmentHeader.decode?_eq_some hread.header
    have hhead : b'.take SegmentHeader.length = b.take SegmentHeader.length := by
      obtain ⟨more, rfl⟩ | ⟨more, rfl⟩ := hb'
      · rw [List.take_append_of_le_length hlong]
      · rw [List.take_append_of_le_length (by omega)]
    refine damaged_of_length (hsame b' hhead) hread.named hplain (fun heq => hne ?_) t'
    have hlength := heq.trans (hread.length hplain).symm
    obtain hsmaller | hlarger := hb'
    · exact hsmaller.eq_of_length hlength
    · exact (hlarger.eq_of_length hlength.symm).symm

/-- **Whatever the bytes, decoding is safe and exact.**  For any bytes, any type and any functions
as codecs a vector is read, or damage is found, or the type is one of lists, which are not stored; no
position is used that lies outside the data.  The vector has a slot for each row of the header, and
a slot is `NULL` just where there is a bitmap with its bit set.  A segment that is not compressed has
just the bytes that the header says, so none that it is a part of and no part of it is read. -/
theorem decodeBy_outcome (codecs : Codecs) (b : Bytes) (t : ColumnType) :
    Comes t (fun v => ∃ h rest scheme, Read b t h rest scheme v ∧
      (scheme = .uncompressed ∨ scheme = .constant → ∀ b' t', b' <+: b ∨ b <+: b' → b' ≠ b →
        ∃ fault, decodeBy codecs b' t' = damaged fault)) (decodeBy codecs b t) := by
  refine (comes_decodeBy codecs b t).imp fun v hv => ?_
  obtain ⟨h, rest, scheme, hread⟩ := hv
  exact ⟨h, rest, scheme, hread, fun hplain b' t' hb' hne =>
    damaged_of_prefix hread hplain hb' hne t'⟩

end SegmentImage

/-- **What is loaded from blocks** is a vector of the type of the segment, with a slot for each
row. -/
theorem Disk.load_sound {d : Disk} {s : StoredValues} {v : ValueVector}
    (ht : s.type.isNested = false) (h : d.source.load s = .ok v) :
    v.Sound ∧ v.type = s.type ∧ v.capacity = s.rows := by
  have hnone : d.source.known s = none := rfl
  rw [Source.load, hnone] at h
  obtain ⟨b, -, h⟩ := bind_eq_ok.mp h
  obtain ⟨v', hv, h⟩ := bind_eq_ok.mp h
  split at h
  · cases h
  · rename_i hc
    obtain rfl := Except.ok.inj h
    obtain ⟨hs, htype⟩ := SegmentImage.decode_sound ht hv
    exact ⟨hs, htype, not_not.mp hc⟩

end ColumnStore
