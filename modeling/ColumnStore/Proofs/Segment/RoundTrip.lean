/-
# Every segment is stored and read back

Slots whose lengths have 32 bits are encoded (`SegmentImage.encodeBy_ok`).  The length that counts
is that of the body before it is compressed: of one value if the slots have one in common, and of
all values one by one otherwise.

`SegmentImage.round_trip`: what is encoded is decoded, whatever the type and the codec, with `NULL`
where it was and with the values themselves unless one stands for all that are the same.
-/

import ColumnStore.Proofs.Segment.Encoding

namespace ColumnStore
namespace SegmentImage

/-! ## Lengths -/

/-- The length of the first `count` slots, value by value. -/
def plainLength (v : ValueVector) (count : Nat) : Nat :=
  match v.type with
  | .varchar => 4 * (count + 1) + ((List.range count).flatMap (slotText v)).length
  | t => count * t.storage.width?.getD 0

/-- The length of one value that stands for all. -/
def constantLength : Scalar → Nat
  | .varchar s => 4 + (Bytes.ofString s).length
  | x => x.fixed.length

/-- The length of the body for the first `count` slots before it is compressed. -/
def bodyLength (v : ValueVector) (count : Nat) : Nat :=
  match uniformity v count with
  | .ok .allNull => 0
  | .ok (.same x) => constantLength x
  | _ => plainLength v count

/-! ## Nothing else stands in the way -/

variable {v : ValueVector} {count : Nat}

theorem length32_of_lt {what : String} {n : Nat} (h : n < UInt32.size) :
    length32 what n = .ok n := if_pos h

/-- **The rows of a sound vector have a bitmap,** if they need one. -/
theorem nullBitmap?_isSome (h : v.Sound) (hc : count ≤ v.capacity) :
    ∃ bitmap, nullBitmap? v count = some bitmap := by
  obtain ⟨hs, hcapacity⟩ : v.validity.Sound ∧ v.validity.capacity = v.capacity := by
    cases v with
    | list => exact h.elim
    | flat => exact ⟨h.2.1, h.2.2.1⟩
  have hc' : count ≤ v.validity.capacity := hcapacity ▸ hc
  obtain ⟨marks, hmarks⟩ := Validity.firstMarks?_isSome hs hc'
  obtain ⟨nulls, hnulls⟩ := Validity.countNull?_isSome hs hc'
  rw [nullBitmap?, hnulls, Validity.toNullBitmap?, hmarks]
  simp only [Option.bind_eq_bind, Option.bind_some, Option.map_some]
  split <;> exact ⟨_, rfl⟩

/-- Slots that are there are compared. -/
theorem uniformFrom_isOk (h : v.Sound) {first : Option Scalar} {i n : Nat}
    (hc : i + n ≤ v.capacity) : ∃ u, uniformFrom v first i n = .ok u := by
  induction n generalizing first i with
  | zero => exact ⟨_, rfl⟩
  | succ n ih =>
    obtain ⟨x, hx, -⟩ := ValueVector.get?_of_lt h (i := i) (by omega)
    rw [uniformFrom, hx]
    have hrest : ∀ f, ∃ u, uniformFrom v f (i + 1) n = .ok u := fun f => ih (by omega)
    cases hn : x.isNull with
    | true =>
      rw [Scalar.eq_null hn]
      exact hrest first
    | false =>
      cases x <;> first
        | cases hn; done
        | cases first with
          | none => exact hrest _
          | some y =>
            dsimp only
            split
            · exact hrest _
            · exact ⟨_, rfl⟩

theorem uniformity_isOk (h : v.Sound) (hc : count ≤ v.capacity) :
    ∃ u, uniformity v count = .ok u := by
  rw [uniformity]
  split
  · exact ⟨_, rfl⟩
  · exact uniformFrom_isOk h (by omega)

theorem constantBody_ok {x : Scalar} (hlen : constantLength x < UInt32.size) :
    ∃ bytes, constantBody x = .ok bytes ∧ bytes.length = constantLength x := by
  cases x
  case varchar s =>
    rw [constantLength] at hlen
    rw [constantBody, length32_of_lt (by omega)]
    exact ⟨_, rfl, by rw [List.length_append, Bytes.length_ofNat]; rfl⟩
  all_goals exact ⟨_, rfl, rfl⟩

/-- **Texts have ends** in 32 bits if all together do. -/
theorem textEnds_ok (start : Nat) (texts : List Bytes)
    (h : start + texts.flatten.length < UInt32.size) :
    ∃ ends data, textEnds start texts = .ok (ends, data) ∧ ends.length = 4 * texts.length ∧
      data.length = texts.flatten.length := by
  induction texts generalizing start with
  | nil => exact ⟨[], [], rfl, rfl, rfl⟩
  | cons text rest ih =>
    rw [List.flatten_cons, List.length_append] at h
    obtain ⟨ends, data, hrest, hends, hdata⟩ := ih (start + text.length) (by omega)
    refine ⟨_, _, by rw [textEnds, length32_of_lt (by omega), ok_bind, hrest]; rfl, ?_, ?_⟩
    · rw [List.length_append, Bytes.length_ofNat, hends, List.length_cons]
      omega
    · rw [List.length_append, hdata, List.flatten_cons, List.length_append]

theorem checkRows_ok {bytes : Nat} (hrows : count < UInt32.size) (hbytes : bytes ≤ Bytes.longest) :
    checkRows count bytes = .ok () := by
  rw [checkRows, if_neg (Nat.not_lt_of_le hbytes), length32_of_lt hrows]
  rfl

/-- **Values are stored one by one** if their length has 32 bits. -/
theorem plainBody_ok (h : v.Sound) (hc : count ≤ v.capacity) (hrows : count < UInt32.size)
    (hlen : plainLength v count < UInt32.size) :
    ∃ raw, plainBody v count = .ok raw ∧ raw.length = plainLength v count := by
  have hlong : UInt32.size ≤ Bytes.longest := by decide
  rw [plainLength] at hlen ⊢
  rw [plainBody]
  have hnested := isNested_of_sound h
  split at hlen
  · rename_i htype
    rw [htype]
    dsimp only
    rw [List.flatMap_def] at hlen ⊢
    obtain ⟨ends, data, htexts, hends, hdata⟩ :=
      textEnds_ok 0 ((List.range count).map (slotText v)) (by omega)
    rw [Nat.min_eq_left hc, checkRows_ok hrows (by omega), htexts]
    refine ⟨_, rfl, ?_⟩
    rw [List.length_append, List.length_append, Bytes.length_ofNat, hends, hdata,
      List.length_map, List.length_range]
    omega
  · rename_i hvarchar
    obtain ⟨w, hw, -⟩ := exists_width hnested hvarchar
    have hslot : ∀ i ∈ List.range count, (slotBytes w v i).length = w := by
      intro i hi
      obtain ⟨x, hx, hfit⟩ := ValueVector.get?_of_lt h (Nat.lt_of_lt_of_le (List.mem_range.mp hi) hc)
      exact length_slotBytes hw hx hfit
    have hbytes := length_flatMap_slotBytes _ hslot
    rw [List.length_range] at hbytes
    cases ht : v.type
    case varchar => exact absurd ht hvarchar
    case list => rw [ht] at hnested; cases hnested
    all_goals
      rw [ht] at hw hlen
      obtain rfl := Option.some.inj hw
      dsimp only at hlen ⊢
      rw [checkRows_ok hrows (by omega)]
      exact ⟨_, rfl, hbytes⟩

/-- **A body is made,** before compression of the length that is known from the slots. -/
theorem body_ok (h : v.Sound) (hc : count ≤ v.capacity) (hrows : count < UInt32.size)
    (hlen : bodyLength v count < UInt32.size) (codec : Option Codec) :
    ∃ stored, body v count codec = .ok stored ∧ stored.length = bodyLength v count := by
  obtain ⟨u, hu⟩ := uniformity_isOk h hc
  rw [bodyLength, hu] at hlen ⊢
  unfold body
  rw [isNested_of_sound h, if_neg Bool.false_ne_true, hu]
  cases u with
  | allNull => exact ⟨_, rfl, rfl⟩
  | same x =>
    obtain ⟨bytes, hbytes, hlength⟩ := constantBody_ok hlen
    exact ⟨⟨.constant, bytes.length, bytes⟩, by simp only [ok_bind, hbytes]; rfl, hlength⟩
  | mixed =>
    obtain ⟨raw, hraw, hlength⟩ := plainBody_ok h hc hrows hlen
    exact ⟨Body.compressed codec raw, by simp only [ok_bind, hraw]; rfl,
      (length_compressed codec raw).trans hlength⟩

/-- **Slots are encoded** if their number and the length of their body have 32 bits. -/
theorem encodeBy_ok (h : v.Sound) (hc : count ≤ v.capacity) (hrows : count < UInt32.size)
    (hlen : bodyLength v count < UInt32.size) (codec : Option Codec) :
    ∃ image, encodeBy codec v count = .ok image := by
  obtain ⟨bitmap, hbitmap⟩ := nullBitmap?_isSome h hc
  obtain ⟨stored, hstored, hlength⟩ := body_ok h hc hrows hlen codec
  unfold encodeBy
  rw [hbitmap]
  simp only [hstored, ok_bind, length32_of_lt hrows, hlength, length32_of_lt hlen]
  exact ⟨_, rfl⟩

/-! ## There and back -/

/-- **Whatever is stored is read back.**  Slots of any type but a list, in any number whose lengths
have 32 bits, are encoded for any scheme and level, and a vector with that many slots of the type is
decoded.  A slot is `NULL` just where it was.  Otherwise it has the same value, and the value itself
unless one value was stored for all. -/
theorem round_trip {codecs : Codecs} (hf : codecs.Faithful) (level : Int) (preferred : Scheme)
    (h : v.Sound) (hc : count ≤ v.capacity) (hrows : count < UInt32.size)
    (hlen : bodyLength v count < UInt32.size) :
    ∃ image v', encodeBy (codecs.ofScheme? level preferred) v count = .ok image ∧
      decodeBy codecs image v.type = .ok v' ∧ v'.type = v.type ∧ v'.capacity = count ∧
      ∀ i < count, ∃ x y, v.get? i = some x ∧ v'.get? i = some y ∧ (y = .null ↔ x = .null) ∧
        y.same x = true ∧ (storedScheme? image ≠ some .constant → y = x) := by
  obtain ⟨image, himage⟩ := encodeBy_ok h hc hrows hlen (codecs.ofScheme? level preferred)
  obtain ⟨v', hv', hkept⟩ := decodeBy_encodeBy h hc (hf.restoresScheme level preferred) himage
  refine ⟨image, v', himage, hv', hkept.type, hkept.capacity, fun i hi => ?_⟩
  obtain ⟨x, y, hx, hy, hsame, hexact⟩ := hkept.slots i hi
  have hnull : y = .null ↔ x = .null := by
    have := Scalar.isNull_of_same hsame
    constructor
    · rintro rfl
      exact Scalar.eq_null this.symm
    · rintro rfl
      exact Scalar.eq_null this
  exact ⟨x, y, hx, hy, hnull, hsame, hexact⟩

/-- A codec for one body, which leaves all others as they are. -/
def oneBody (c : Codec) (raw : Bytes) : Codec :=
  { c with compress := fun b => if b = raw then c.compress b else b }

theorem restores_oneBody {c : Codec} {raw : Bytes}
    (h : c.decompress (c.compress raw) raw.length = .ok raw) :
    (oneBody c raw).Restores (oneBody c raw) := by
  intro b _ hshort
  rw [oneBody] at hshort ⊢
  dsimp only at hshort ⊢
  split at hshort
  · rename_i hb
    rw [if_pos hb, hb, h]
  · exact absurd hshort (Nat.lt_irrefl _)

/-- Eleven sevens around a `NULL`, and a nine. -/
def sevens : ValueVector :=
  .flat .integer ⟨13, some ((Array.replicate 64 true).setIfInBounds 4 false)⟩
    ((Array.replicate 12 (.integer 7)).push (.integer 9))

/-- The values of `sevens` one by one, zeros for the `NULL`. -/
def sevensBody : Bytes :=
  (List.replicate 4 [7, 0, 0, 0]).flatten ++ [0, 0, 0, 0] ++
    (List.replicate 7 [7, 0, 0, 0]).flatten ++ [9, 0, 0, 0]

/-- The codecs of this library for the body of `sevens`. -/
def sevensCodecs : Codecs where
  lz4 := oneBody .lz4 sevensBody
  zstd _ := oneBody .zstd sevensBody
  scheme_lz4 := rfl
  scheme_zstd _ := rfl

theorem faithful_sevensCodecs : sevensCodecs.Faithful where
  lz4 := restores_oneBody (by decide +kernel)
  zstd _ := restores_oneBody (by decide +kernel)

theorem sound_sevens : sevens.Sound := by
  refine ⟨rfl, ?_, rfl, fun x hx => ?_⟩
  · rintro _ ⟨⟩
    rfl
  · rcases Array.mem_push.mp hx with hx | rfl
    · obtain ⟨-, rfl⟩ := Array.mem_replicate.mp hx
      exact ⟨rfl, rfl⟩
    · exact ⟨rfl, rfl⟩

/-- Values that are compressed, with a `NULL` among them. -/
theorem round_trip_sevens :
    storedScheme? <$> encodeBy (sevensCodecs.ofScheme? 3 .lz4) sevens 13 = .ok (some .lz4) ∧
    ∃ image v', encodeBy (sevensCodecs.ofScheme? 3 .lz4) sevens 13 = .ok image ∧
      decodeBy sevensCodecs image .integer = .ok v' ∧ v'.type = .integer ∧ v'.capacity = 13 ∧
      ∀ i < 13, ∃ x y, sevens.get? i = some x ∧ v'.get? i = some y ∧ (y = .null ↔ x = .null) ∧
        y.same x = true ∧ (storedScheme? image ≠ some .constant → y = x) :=
  ⟨by decide +kernel, round_trip faithful_sevensCodecs 3 .lz4 sound_sevens (by decide)
    (by decide) (by decide +kernel)⟩

end SegmentImage
end ColumnStore
