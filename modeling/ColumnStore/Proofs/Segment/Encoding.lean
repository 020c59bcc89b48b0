/-
# Segments are read back

What a vector holds in its first slots is decoded from the bytes that it is encoded to
(`SegmentImage.decode_encode`).  Where all values are the same in the order, one of them stands for
all; otherwise each value is read back as it was.
-/

import ColumnStore.Proofs.Segment.Decoding
import ColumnStore.Proofs.Value.Sameness
import ColumnStore.Segment.Image

namespace ColumnStore

/-! ## The header -/

/-- **A header is read back,** whatever follows it. -/
theorem SegmentHeader.decode?_encode {h : SegmentHeader} (hrows : h.rows < UInt32.size)
    (hbody : h.bodyLength < UInt32.size) (rest : Bytes) :
    decode? (h.encode ++ rest) = some (h, rest) := by
  have hlen : h.encode.length = length := by simp [encode, length]
  have hflags : ofFlags? (UInt8.ofNat h.flags).toNat = some (h.hasNulls, h.compressed) := by
    rw [flags]
    cases h.hasNulls <;> cases h.compressed <;> decide
  have hsplit : Bytes.split? length (h.encode ++ rest) = some (h.encode, rest) :=
    Bytes.split?_eq_some.mpr ⟨rfl, hlen⟩
  have hnumbers : ∀ n, n < UInt32.size → Bytes.toNat (Bytes.ofNat 4 n) = n := fun n hn =>
    (Bytes.toNat_ofNat 4 n).trans (Nat.mod_eq_of_lt hn)
  have hencode : h.encode = h.storage :: UInt8.ofNat h.flags :: h.scheme :: h.reserved ::
      (Bytes.ofNat 4 h.rows ++ Bytes.ofNat 4 h.bodyLength) := by
    rw [encode, List.append_assoc]
    rfl
  rw [decode?, hsplit, hencode]
  simp only [hflags, Option.bind_eq_bind, Option.bind_some,
    List.take_left' (Bytes.length_ofNat 4 _), List.drop_left' (Bytes.length_ofNat 4 _),
    hnumbers _ hrows, hnumbers _ hbody]
  rfl

/-! ## Codecs -/

/-- A scheme whose codec, if it has one, restores what it has compressed. -/
def Scheme.Faithful (s : Scheme) : Prop := ∀ c, Codec.ofScheme? s = some c → c.Faithful

/-- The codec of a scheme is restored by the one that is found for decoding. -/
def Codecs.RestoresScheme (codecs : Codecs) (level : Int) (s : Scheme) : Prop :=
  ∀ c, codecs.ofScheme? level s = some c → ∃ d, codecs.ofScheme? 0 s = some d ∧ d.Restores c

theorem Codecs.Faithful.restoresScheme {codecs : Codecs} (h : codecs.Faithful) (level : Int)
    (s : Scheme) : codecs.RestoresScheme level s := by
  intro c hc
  cases s with
  | lz4 => exact ⟨_, rfl, Option.some.inj hc ▸ h.lz4⟩
  | zstd => exact ⟨_, rfl, Option.some.inj hc ▸ h.zstd level⟩
  | uncompressed | constant => cases hc

theorem Scheme.Faithful.restoresScheme {s : Scheme} (h : s.Faithful) :
    Codecs.builtin.RestoresScheme 0 s := fun c hc => ⟨c, hc, (h c hc).restores⟩

namespace SegmentImage

theorem length32_ok {what : String} {n m : Nat} (h : length32 what n = .ok m) :
    m = n ∧ n < UInt32.size := by
  rw [length32] at h
  split at h
  · exact ⟨(Except.ok.inj h).symm, ‹_›⟩
  · cases h

theorem length_compressed (codec : Option Codec) (raw : Bytes) :
    (Body.compressed codec raw).length = raw.length := by
  unfold Body.compressed
  cases codec with
  | none => rfl
  | some c =>
    dsimp only
    split <;> rfl

/-- A body is compressed by the codec of the scheme or left as it is. -/
theorem compressed_cases (codecs : Codecs) (level : Int) (preferred : Scheme) (raw : Bytes) :
    let stored := Body.compressed (codecs.ofScheme? level preferred) raw
    (stored.scheme = .uncompressed ∧ stored.bytes = raw) ∨
      ∃ c, codecs.ofScheme? level preferred = some c ∧ stored.scheme = preferred ∧
        stored.bytes = c.compress raw ∧ (c.compress raw).length < raw.length := by
  unfold Body.compressed
  cases hc : codecs.ofScheme? level preferred with
  | none => exact .inl ⟨rfl, rfl⟩
  | some c =>
    dsimp only
    split
    · exact .inr ⟨c, rfl, Codecs.scheme_ofScheme? hc, rfl, ‹_›⟩
    · exact .inl ⟨rfl, rfl⟩

/-- **A body is restored from its bytes.** -/
theorem decodeBody_compressed {codecs : Codecs} {level : Int} {preferred : Scheme}
    (hf : codecs.RestoresScheme level preferred) {raw : Bytes} (hraw : raw.length < UInt32.size)
    {h : SegmentHeader} (hlen : h.bodyLength = raw.length) :
    let stored := Body.compressed (codecs.ofScheme? level preferred) raw
    decodeBody (codecs.ofScheme? 0 stored.scheme) h stored.bytes = .ok raw ∧
      stored.scheme ≠ .constant := by
  dsimp only
  rcases compressed_cases codecs level preferred raw with
    ⟨hscheme, hbytes⟩ | ⟨c, hc, hscheme, hbytes, hshort⟩
  · rw [hscheme, hbytes]
    unfold decodeBody
    refine ⟨?_, by simp⟩
    simp [Codecs.ofScheme?, hlen]
  · obtain ⟨d, hd, hrestores⟩ := hf c hc
    rw [hscheme, hbytes, hd]
    unfold decodeBody
    refine ⟨?_, ?_⟩
    · simp [hlen, hrestores raw hraw hshort]
    · rintro rfl
      cases hc

/-! ## Values of fixed width -/

/-- All types but text and lists have a width. -/
theorem exists_width {t : ColumnType} (hnested : t.isNested = false) (hvarchar : t ≠ .varchar) :
    ∃ w, t.storage.width? = some w ∧ 0 < w := by
  cases t <;> first
    | exact ⟨_, rfl, by decide⟩
    | exact absurd rfl hvarchar
    | cases hnested

/-- Every slot takes the width of its type. -/
theorem length_slotBytes {v : ValueVector} {w : Nat} (hw : v.type.storage.width? = some w) {i : Nat}
    {x : Scalar} (hx : v.get? i = some x) (hfit : x.fits v.type = true) :
    (slotBytes w v i).length = w := by
  rw [slotBytes, hx]
  cases hn : x.isNull with
  | true =>
    rw [Scalar.eq_null hn]
    exact List.length_replicate
  | false => cases x <;> first | exact Scalar.length_fixed hfit hn hw | cases hn

/-- **Parts of one width are read one after the other.** -/
theorem fixedValues?_flatMap (t : ColumnType) {width : Nat} {f : Nat → Bytes} (rows : List Nat)
    (h : ∀ i ∈ rows, (f i).length = width) :
    fixedValues? t width rows.length (rows.flatMap f) =
      some (rows.map fun i => Scalar.ofFixed t (f i)) := by
  induction rows with
  | nil => rfl
  | cons i rest ih =>
    have hsplit : Bytes.split? width ((i :: rest).flatMap f) = some (f i, rest.flatMap f) :=
      Bytes.split?_eq_some.mpr ⟨List.flatMap_cons, h i List.mem_cons_self⟩
    rw [List.length_cons, fixedValues?, hsplit]
    simp only [Option.bind_eq_bind, Option.bind_some, ih fun j hj => h j (List.mem_cons_of_mem _ hj)]
    rfl

theorem length_flatMap_slotBytes {width : Nat} {f : Nat → Bytes} (rows : List Nat)
    (h : ∀ i ∈ rows, (f i).length = width) : (rows.flatMap f).length = rows.length * width := by
  induction rows with
  | nil => simp
  | cons i rest ih =>
    rw [List.flatMap_cons, List.length_append, h i List.mem_cons_self,
      ih fun j hj => h j (List.mem_cons_of_mem _ hj), List.length_cons, Nat.succ_mul, Nat.add_comm]

theorem plainValues_flatMap {t : ColumnType} {width : Nat} (ht : t.isNested = false)
    (hvarchar : t ≠ .varchar) (hw : t.storage.width? = some width) {f : Nat → Bytes}
    (rows : List Nat) (h : ∀ i ∈ rows, (f i).length = width) :
    plainValues t rows.length (rows.flatMap f) = .ok (rows.map fun i => Scalar.ofFixed t (f i)) := by
  rw [plainValues]
  · rw [hw, Option.getD_some, if_neg (not_not.mpr (length_flatMap_slotBytes rows h)),
      fixedValues?_flatMap t rows h]
    rfl
  · rintro item rfl
    cases ht
  · exact hvarchar

/-! ## Text -/

/-- **Texts are read back** from their ends. -/
theorem textValues_textEnds {start : Nat} {texts : List String} {ends data : Bytes}
    (h : textEnds start (texts.map Bytes.ofString) = .ok (ends, data)) :
    ends.length = 4 * texts.length ∧
      textValues (start + data.length) start data (words texts.length ends) =
        .ok (texts.map .varchar) := by
  induction texts generalizing start ends data with
  | nil =>
    obtain ⟨rfl, rfl⟩ := Prod.mk.inj (Except.ok.inj h)
    refine ⟨rfl, ?_⟩
    exact if_pos rfl
  | cons text rest ih =>
    rw [List.map_cons, textEnds] at h
    obtain ⟨stop, hstop, h⟩ := bind_eq_ok.mp h
    obtain ⟨⟨ends', data'⟩, hmore, h⟩ := bind_eq_ok.mp h
    obtain ⟨rfl, rfl⟩ := Prod.mk.inj (Except.ok.inj h)
    obtain ⟨rfl, hlt⟩ := length32_ok hstop
    obtain ⟨hends, hvalues⟩ := ih hmore
    refine ⟨by rw [List.length_append, Bytes.length_ofNat, hends, List.length_cons]; omega, ?_⟩
    have hnumber : Bytes.toNat (Bytes.ofNat 4 (start + (Bytes.ofString text).length)) =
        start + (Bytes.ofString text).length :=
      (Bytes.toNat_ofNat 4 _).trans (Nat.mod_eq_of_lt hlt)
    rw [List.length_cons, words, List.take_left' (Bytes.length_ofNat 4 _),
      List.drop_left' (Bytes.length_ofNat 4 _), hnumber, textValues, if_neg (by
        rw [List.length_append]
        omega), Nat.add_sub_cancel_left, Bytes.split?_append, List.length_append, ← Nat.add_assoc]
    simp only [within, ok_bind, Utf8.decode_ofString, hvalues]
    rfl

/-- **The body of some texts** is read back. -/
theorem textBody_textEnds {texts : List String} {ends data : Bytes}
    (h : textEnds 0 (texts.map Bytes.ofString) = .ok (ends, data)) :
    textBody texts.length (Bytes.ofNat 4 0 ++ ends ++ data) = .ok (texts.map .varchar) := by
  obtain ⟨hends, hvalues⟩ := textValues_textEnds h
  have hoffsets : (Bytes.ofNat 4 0 ++ ends).length = 4 * (texts.length + 1) := by
    rw [List.length_append, Bytes.length_ofNat, hends]
    omega
  rw [textBody, if_neg (by rw [List.length_append, hoffsets]; omega), List.splitAt_eq,
    List.take_left' hoffsets, List.drop_left' hoffsets]
  dsimp only
  rw [List.take_left' (Bytes.length_ofNat 4 _), List.drop_left' (Bytes.length_ofNat 4 _)]
  rw [Nat.zero_add] at hvalues
  exact hvalues

/-- The text in a slot, none being empty. -/
def textOf : Option Scalar → String
  | some (.varchar s) => s
  | _ => ""

theorem slotText_eq (v : ValueVector) (i : Nat) :
    slotText v i = Bytes.ofString (textOf (v.get? i)) := by
  rw [slotText]
  cases v.get? i with
  | none => rfl
  | some x => cases x <;> rfl

/-! ## Bodies -/

variable {v : ValueVector} {count : Nat}

/-- **Values that are stored one by one** are read back. -/
theorem plainValues_plainBody (h : v.Sound) (hc : count ≤ v.capacity) {raw : Bytes}
    (hok : plainBody v count = .ok raw) :
    ∃ values, plainValues v.type count raw = .ok values ∧ values.length = count ∧
      ∀ i < count, ∀ x, v.get? i = some x → x.isNull = false → values[i]? = some x := by
  rw [plainBody] at hok
  split at hok
  · cases hok
  · rename_i htype
    obtain ⟨⟨⟩, -, hok⟩ := bind_eq_ok.mp hok
    obtain ⟨⟨ends, data⟩, hends, hok⟩ := bind_eq_ok.mp hok
    obtain rfl := Except.ok.inj hok
    have htexts : (List.range (min count v.capacity)).map (slotText v) =
        ((List.range count).map fun i => textOf (v.get? i)).map Bytes.ofString := by
      rw [Nat.min_eq_left hc, List.map_map]
      exact List.map_congr_left fun i _ => slotText_eq v i
    rw [htexts] at hends
    have hbody := textBody_textEnds hends
    rw [List.length_map, List.length_range] at hbody
    refine ⟨_, by rw [htype, plainValues]; exact hbody, by simp, fun i hi x hx hn => ?_⟩
    obtain ⟨y, hy, hfit⟩ := ValueVector.get?_of_lt h (Nat.lt_of_lt_of_le hi hc)
    obtain rfl := Option.some.inj (hx.symm.trans hy)
    rw [htype] at hfit
    rw [List.getElem?_map, List.getElem?_map, List.getElem?_range hi, Option.map_some,
      Option.map_some, hx]
    cases x <;> first | rfl | cases hfit; done | cases hn
  · rename_i hlist hvarchar
    obtain ⟨⟨⟩, -, hok⟩ := bind_eq_ok.mp hok
    obtain rfl := Except.ok.inj hok
    have hnested : v.type.isNested = false := by
      cases ht : v.type <;> first | rfl | exact absurd ht (hlist _)
    obtain ⟨w, hw, -⟩ := exists_width hnested hvarchar
    have hfixed : v.type.storage.isFixedWidth = true := by
      rw [StorageClass.isFixedWidth, hw]
      rfl
    have hslot : ∀ i ∈ List.range count, (slotBytes (v.type.storage.width?.getD 0) v i).length = w := by
      intro i hi
      obtain ⟨x, hx, hfit⟩ := ValueVector.get?_of_lt h (Nat.lt_of_lt_of_le (List.mem_range.mp hi) hc)
      rw [hw]
      exact length_slotBytes hw hx hfit
    have hvalues : plainValues v.type count
        ((List.range count).flatMap (slotBytes (v.type.storage.width?.getD 0) v)) =
        .ok ((List.range count).map fun i =>
          Scalar.ofFixed v.type (slotBytes (v.type.storage.width?.getD 0) v i)) := by
      have hread := plainValues_flatMap hnested hvarchar hw _ hslot
      rw [List.length_range] at hread
      exact hread
    refine ⟨_, hvalues, by simp, fun i hi x hx hn => ?_⟩
    obtain ⟨y, hy, hfit⟩ := ValueVector.get?_of_lt h (Nat.lt_of_lt_of_le hi hc)
    obtain rfl := Option.some.inj (hx.symm.trans hy)
    have hbytes : slotBytes (v.type.storage.width?.getD 0) v i = x.fixed := by
      rw [slotBytes, hx]
      cases x <;> first | rfl | cases hn
    rw [List.getElem?_map, List.getElem?_range hi, Option.map_some, hbytes,
      Scalar.ofFixed_fixed hfit hn hfixed]

/-- What is found out of the slots from `i` on. -/
def Uniformity.Holds (v : ValueVector) (first : Option Scalar) (i n : Nat) : Uniformity → Prop
  | .allNull => first = none ∧ ∀ j, i ≤ j → j < i + n → v.get? j = some .null
  | .same x => (first = some x ∨ first = none ∧ ∃ j, i ≤ j ∧ j < i + n ∧ v.get? j = some x) ∧
    x.isNull = false ∧ ∀ j, i ≤ j → j < i + n →
      ∃ y, v.get? j = some y ∧ (y.isNull = true ∨ x.same y = true)
  | .mixed => True

/-- What holds of the slots behind one holds of that one, too, when it is null or says the same. -/
theorem Uniformity.Holds.cons {first f : Option Scalar} {i n : Nat} {u : Uniformity} {y : Scalar}
    (hy : v.get? i = some y) (hu : u.Holds v f (i + 1) n)
    (hf : f = first ∨ first = none ∧ f = some y)
    (hsame : ∀ x, f = some x → y.isNull = true ∨ x.same y = true) (hnull : f = none → y = .null) :
    u.Holds v first i (n + 1) := by
  have hnone : f = none → first = none := by
    rintro rfl
    rcases hf with hf | ⟨hf, -⟩
    · exact hf.symm
    · exact hf
  cases u with
  | mixed => trivial
  | allNull =>
    obtain ⟨rfl, hall⟩ := hu
    refine ⟨hnone rfl, fun j hj hj' => ?_⟩
    rcases Nat.eq_or_lt_of_le hj with rfl | hj
    · rw [hy, hnull rfl]
    · exact hall j hj (by omega)
  | same x =>
    obtain ⟨hx, hxn, hall⟩ := hu
    have hhead : y.isNull = true ∨ x.same y = true := by
      rcases hx with hx | ⟨rfl, -⟩
      · exact hsame x hx
      · rw [hnull rfl]
        exact .inl rfl
    refine ⟨?_, hxn, fun j hj hj' => ?_⟩
    · rcases hx with rfl | ⟨rfl, j, hj, hj', hjx⟩
      · rcases hf with rfl | ⟨rfl, hf⟩
        · exact .inl rfl
        · obtain rfl := Option.some.inj hf
          exact .inr ⟨rfl, i, Nat.le_refl _, by omega, hy⟩
      · exact .inr ⟨hnone rfl, j, by omega, by omega, hjx⟩
    · rcases Nat.eq_or_lt_of_le hj with rfl | hj
      · exact ⟨y, hy, hhead⟩
      · exact hall j hj (by omega)

theorem uniformFrom_ok {first : Option Scalar} {i n : Nat} {u : Uniformity}
    (hfirst : ∀ x, first = some x → x.isNull = false) (h : uniformFrom v first i n = .ok u) :
    u.Holds v first i n := by
  induction n generalizing first i with
  | zero =>
    obtain rfl := Except.ok.inj h
    cases first with
    | none => exact ⟨rfl, fun j hj hj' => absurd hj' (Nat.not_lt_of_le hj)⟩
    | some x =>
      exact ⟨.inl rfl, hfirst x rfl, fun j hj hj' => absurd hj' (Nat.not_lt_of_le hj)⟩
  | succ n ih =>
    rw [uniformFrom] at h
    split at h
    · cases h
    · rename_i hy
      exact (ih hfirst h).cons hy (.inl rfl) (fun x _ => .inl rfl) fun _ => rfl
    · rename_i y hne hy
      have hyn : y.isNull = false := by
        cases hn : y.isNull with
        | false => rfl
        | true => exact (hne (Scalar.eq_null hn)).elim
      split at h
      · refine (ih ?_ h).cons hy (.inr ⟨rfl, rfl⟩) (fun x hx => ?_) fun hf => by cases hf
        · intro x hx
          obtain rfl := Option.some.inj hx
          exact hyn
        · obtain rfl := Option.some.inj hx
          exact .inr (Scalar.same_self y)
      · rename_i x
        split at h
        · rename_i hs
          refine (ih hfirst h).cons hy (.inl rfl) (fun z hz => ?_) fun hf => by cases hf
          obtain rfl := Option.some.inj hz
          exact .inr hs
        · obtain rfl := Except.ok.inj h
          trivial

/-- **The one value of a body** is read back. -/
theorem constantValue_constantBody {x : Scalar} {t : ColumnType} (ht : t.isNested = false)
    (hfit : x.fits t = true) (hn : x.isNull = false) {b : Bytes} (hok : constantBody x = .ok b) :
    b ≠ [] ∧ constantValue t b = .ok x := by
  unfold constantBody at hok
  split at hok
  · rename_i s
    obtain ⟨n, hlen, hok⟩ := bind_eq_ok.mp hok
    obtain rfl := Except.ok.inj hok
    obtain ⟨rfl, hlt⟩ := length32_ok hlen
    obtain rfl : t = .varchar := by cases t <;> first | rfl | cases hfit
    refine ⟨fun hnil => ?_, ?_⟩
    · have := congrArg List.length hnil
      rw [List.length_append, Bytes.length_ofNat] at this
      simp at this
    · have hnumber : Bytes.toNat (Bytes.ofNat 4 (Bytes.ofString s).length) =
          (Bytes.ofString s).length := (Bytes.toNat_ofNat 4 _).trans (Nat.mod_eq_of_lt hlt)
      have hends : textEnds 0 ([s].map Bytes.ofString) =
          .ok (Bytes.ofNat 4 (Bytes.ofString s).length, Bytes.ofString s) := by
        rw [List.map_singleton, textEnds, Nat.zero_add, length32, if_pos hlt]
        simp only [ok_bind, textEnds, List.append_nil]
        rfl
      have hsplit := Bytes.split?_append (Bytes.ofNat 4 (Bytes.ofString s).length) (Bytes.ofString s)
      rw [Bytes.length_ofNat] at hsplit
      have hbody := textBody_textEnds hends
      rw [List.length_singleton, List.map_singleton] at hbody
      simp only [constantValue, hsplit, hnumber, ne_eq, not_true_eq_false, if_false, hbody]
      rfl
  · rename_i hvarchar
    obtain rfl := Except.ok.inj hok
    have hnot : t ≠ .varchar := by
      rintro rfl
      cases x <;> first | exact hvarchar _ rfl | cases hn; done | cases hfit
    obtain ⟨w, hw, hpos⟩ := exists_width ht hnot
    have hlen := Scalar.length_fixed hfit hn hw
    have hfixed : t.storage.isFixedWidth = true := by
      rw [StorageClass.isFixedWidth, hw]
      rfl
    have hplain : plainValues t 1 x.fixed = .ok [x] := by
      have hread := plainValues_flatMap ht hnot hw [0] (f := fun _ => x.fixed) fun _ _ => hlen
      rw [List.flatMap_singleton, List.map_singleton, Scalar.ofFixed_fixed hfit hn hfixed] at hread
      exact hread
    refine ⟨List.ne_nil_of_length_pos (hlen ▸ hpos), ?_⟩
    rw [constantValue]
    · simp only [hplain]
      rfl
    · exact hnot

/-- **The three forms of a body.** -/
theorem body_cases {codec : Option Codec} (hnested : v.type.isNested = false) {stored : Body}
    (hok : body v count codec = .ok stored) :
    (count ≠ 0 ∧ uniformFrom v none 0 count = .ok .allNull ∧ stored = ⟨.constant, 0, []⟩) ∨
      (∃ x bytes, count ≠ 0 ∧ uniformFrom v none 0 count = .ok (.same x) ∧
        constantBody x = .ok bytes ∧ stored = ⟨.constant, bytes.length, bytes⟩) ∨
      ∃ raw, plainBody v count = .ok raw ∧ stored = Body.compressed codec raw := by
  rw [body, hnested, if_neg Bool.false_ne_true] at hok
  dsimp only at hok
  rw [uniformity] at hok
  split at hok
  · obtain ⟨uniform, huniform, hok⟩ := bind_eq_ok.mp hok
    obtain rfl := Except.ok.inj huniform
    obtain ⟨raw, hraw, hok⟩ := bind_eq_ok.mp hok
    exact .inr (.inr ⟨raw, hraw, (Except.ok.inj hok).symm⟩)
  · rename_i hpos
    obtain ⟨uniform, huniform, hok⟩ := bind_eq_ok.mp hok
    cases uniform with
    | allNull => exact .inl ⟨hpos, huniform, (Except.ok.inj hok).symm⟩
    | same x =>
      obtain ⟨bytes, hbytes, hok⟩ := bind_eq_ok.mp hok
      exact .inr (.inl ⟨x, bytes, hpos, huniform, hbytes, (Except.ok.inj hok).symm⟩)
    | mixed =>
      obtain ⟨raw, hraw, hok⟩ := bind_eq_ok.mp hok
      exact .inr (.inr ⟨raw, hraw, (Except.ok.inj hok).symm⟩)

/-! ## Whole segments -/

/-- The mask of the first slots, as it is read back. -/
theorem decodeNulls_nullBitmap {bitmap : Option Bytes}
    (hok : nullBitmap? v count = some bitmap) {header : SegmentHeader} (hrows : header.rows = count)
    (hnulls : header.hasNulls = bitmap.isSome) (rest : Bytes) :
    ∃ validity, decodeNulls header (bitmap.getD [] ++ rest) = .ok (validity, rest) ∧
      validity.Sound ∧ validity.capacity = count ∧
      ∀ i < count, validity.get? i = v.validity.get? i := by
  obtain ⟨nulls, hcount, hok⟩ := Option.bind_eq_some_iff.mp hok
  split at hok
  · obtain ⟨bits, hbits, hok⟩ := Option.bind_eq_some_iff.mp hok
    obtain rfl := Option.some.inj hok
    obtain ⟨marks, hmarks, rfl⟩ := Option.map_eq_some_iff.mp hbits
    obtain ⟨rfl, hget⟩ := Validity.firstMarks?_eq_some hmarks
    obtain ⟨validity, hread, hs, hcapacity, hsame⟩ := Validity.ofNullBitmap?_packBits marks
    have hsplit := Bytes.split?_append (Validity.packBits (marks.map (!·))) rest
    rw [Validity.length_packBits, List.length_map] at hsplit
    refine ⟨validity, ?_, hs, hcapacity, fun i hi => by rw [hsame i hi, hget i hi]⟩
    rw [decodeNulls, hnulls, hrows, Option.getD_some]
    simp only [Option.isSome_some, if_true, hsplit, hread]
    rfl
  · rename_i hzero
    obtain rfl := Option.some.inj hok
    obtain rfl : nulls = 0 := by omega
    refine ⟨.new count, ?_, Validity.sound_new _, rfl, fun i hi => ?_⟩
    · rw [decodeNulls, hnulls, hrows]
      rfl
    · rw [Validity.get?_of_countNull? hcount hi]
      rfl

/-- Whether a slot of a sound vector is marked tells whether it holds `NULL`. -/
theorem get?_of_sound (h : v.Sound) {i : Nat} (hi : i < v.capacity) {x : Scalar}
    (hx : v.get? i = some x) : v.validity.get? i = some !x.isNull := by
  cases v with
  | list => exact h.elim
  | flat t marks slots =>
    obtain ⟨-, hmarks, hcapacity, hslots⟩ := h
    obtain ⟨b, hb⟩ := Validity.get?_of_lt hmarks (Nat.lt_of_lt_of_eq hi hcapacity.symm)
    rw [ValueVector.get?, ValueVector.validity, hb] at hx
    rw [ValueVector.validity, hb]
    cases b with
    | false =>
      obtain rfl := Option.some.inj hx
      rfl
    | true =>
      have hm : x ∈ slots := Array.mem_of_getElem? hx
      rw [(hslots x hm).2]
      rfl

/-- Marks tell which of the first slots of a vector hold `NULL`. -/
structure Marked (v : ValueVector) (count : Nat) (validity : Validity) : Prop where
  sound : validity.Sound
  capacity : validity.capacity = count
  marks : ∀ i < count, ∃ x, v.get? i = some x ∧ x.fits v.type = true ∧
    validity.get? i = some !x.isNull

/-- The first slots of a vector are those of another one, up to values that are the same unless
they are kept exactly. -/
structure KeptIn (v : ValueVector) (count : Nat) (exactly : Prop) (v' : ValueVector) : Prop where
  type : v'.type = v.type
  capacity : v'.capacity = count
  slots : ∀ i < count, ∃ x y, v.get? i = some x ∧ v'.get? i = some y ∧ y.same x = true ∧
    (exactly → y = x)

theorem isNested_of_sound (h : v.Sound) : v.type.isNested = false := by
  cases v with
  | list => exact h.elim
  | flat => exact h.1

/-- **Rows that are all `NULL`** need no body. -/
theorem keptIn_allNull {validity : Validity} (h : Marked v count validity) (hpos : count ≠ 0)
    (huniform : uniformFrom v none 0 count = .ok .allNull) (exactly : Prop) :
    ∃ v', decodeConstant v.type count validity [] = .ok v' ∧ KeptIn v count exactly v' := by
  obtain ⟨-, hall⟩ := uniformFrom_ok (fun x hx => by cases hx) huniform
  have hnull : ∀ i < count, validity.get? i = some false := by
    intro i hi
    obtain ⟨x, hx, -, hmark⟩ := h.marks i hi
    obtain rfl := Option.some.inj (hx.symm.trans (hall i (Nat.zero_le _) (by omega)))
    exact hmark
  have hcounted := Validity.countNull?_of_all h.sound (Nat.le_of_eq h.capacity.symm)
    (Nat.pos_of_ne_zero hpos) hnull
  refine ⟨(ValueVector.new v.type count).withValidity validity, ?_, by simp, by simp,
    fun i hi => ⟨.null, .null, hall i (Nat.zero_le _) (by omega), ?_, rfl, fun _ => rfl⟩⟩
  · simp [decodeConstant, hcounted, within]
  · rw [ValueVector.get?, ValueVector.validity_withValidity, hnull i hi]

/-- **One value stands for all** that are the same. -/
theorem keptIn_same {validity : Validity} (h : Marked v count validity)
    (hnested : v.type.isNested = false) {x : Scalar} {bytes : Bytes}
    (huniform : uniformFrom v none 0 count = .ok (.same x)) (hbytes : constantBody x = .ok bytes) :
    ∃ v', decodeConstant v.type count validity bytes = .ok v' ∧ KeptIn v count False v' := by
  obtain ⟨hone, hxn, hall⟩ := uniformFrom_ok (fun x hx => by cases hx) huniform
  obtain ⟨-, j, -, hj, hjx⟩ := hone.resolve_left (fun hf => by cases hf)
  obtain ⟨x', hx', hfit, -⟩ := h.marks j (by omega)
  obtain rfl := Option.some.inj (hjx.symm.trans hx')
  obtain ⟨hne, hvalue⟩ := constantValue_constantBody hnested hfit hxn hbytes
  obtain rfl := h.capacity
  obtain ⟨values, hok, hlen, -, hvalues⟩ := decodeConstant_of_value h.sound hne hvalue
  refine ⟨_, hok, rfl, by simpa [vectorOf, ValueVector.capacity] using hlen, fun i hi => ?_⟩
  · obtain ⟨y, hy, -, hmark⟩ := h.marks i hi
    obtain ⟨y', hy', hcases⟩ := hall i (Nat.zero_le _) (by omega)
    obtain rfl := Option.some.inj (hy.symm.trans hy')
    rw [get?_vectorOf, hmark]
    cases hyn : y.isNull with
    | true => exact ⟨y, .null, hy, rfl, by rw [Scalar.eq_null hyn]; rfl, False.elim⟩
    | false =>
      refine ⟨y, x, hy, ?_, hcases.resolve_left (by rw [hyn]; decide), False.elim⟩
      exact hvalues i hi (by rw [hmark, hyn]; rfl)

/-- **Values that are stored one by one** are kept exactly. -/
theorem keptIn_plain {validity : Validity} (h : Marked v count validity) (hs : v.Sound)
    (hc : count ≤ v.capacity) {raw : Bytes} (hraw : plainBody v count = .ok raw) (exactly : Prop) :
    ∃ values, plainValues v.type count raw = .ok values ∧
      KeptIn v count exactly (vectorOf v.type validity values) := by
  obtain ⟨values, hvalues, hlen, hget⟩ := plainValues_plainBody hs hc hraw
  refine ⟨values, hvalues, rfl, hlen, fun i hi => ?_⟩
  obtain ⟨x, hx, -, hmark⟩ := h.marks i hi
  rw [get?_vectorOf, hmark]
  cases hxn : x.isNull with
  | true => exact ⟨x, .null, hx, rfl, by rw [Scalar.eq_null hxn]; rfl, fun _ => (Scalar.eq_null hxn).symm⟩
  | false => exact ⟨x, x, hx, hget i hi x hx hxn, Scalar.same_self x, fun _ => rfl⟩

/-- The scheme in the header of an encoded segment. -/
def storedScheme? (b : Bytes) : Option Scheme := do
  let (header, _) ← SegmentHeader.decode? b
  Scheme.ofTag? header.scheme

/-- **A vector is read back** from the bytes of its first slots, exactly unless one value stands
for all. -/
theorem decodeBy_encodeBy (h : v.Sound) (hc : count ≤ v.capacity) {codecs : Codecs} {level : Int}
    {preferred : Scheme} (hf : codecs.RestoresScheme level preferred) {b : Bytes}
    (hok : encodeBy (codecs.ofScheme? level preferred) v count = .ok b) :
    ∃ v', decodeBy codecs b v.type = .ok v' ∧
      KeptIn v count (storedScheme? b ≠ some .constant) v' := by
  rw [encodeBy] at hok
  split at hok
  · cases hok
  rename_i bitmap hbitmap
  obtain ⟨stored, hbody, hok⟩ := bind_eq_ok.mp hok
  obtain ⟨rows, hrows, hok⟩ := bind_eq_ok.mp hok
  obtain ⟨length, hlength, hok⟩ := bind_eq_ok.mp hok
  obtain rfl := Except.ok.inj hok
  obtain ⟨rfl, hcount⟩ := length32_ok hrows
  obtain ⟨rfl, hsmall⟩ := length32_ok hlength
  set header := SegmentHeader.new v.type.storage stored.scheme bitmap.isSome rows stored.length
  obtain ⟨validity, hnulls, hs, hcapacity, hsame⟩ :=
    decodeNulls_nullBitmap hbitmap (rfl : header.rows = rows) rfl stored.bytes
  have hheader : SegmentHeader.decode? (header.encode ++ bitmap.getD [] ++ stored.bytes) =
      some (header, bitmap.getD [] ++ stored.bytes) := by
    rw [List.append_assoc]
    exact SegmentHeader.decode?_encode hcount hsmall _
  have htag : StorageClass.ofTag? header.storage = some v.type.storage := StorageClass.ofTag?_tag _
  have hscheme : Scheme.ofTag? header.scheme = some stored.scheme := Scheme.ofTag?_tag _
  have hmarked : Marked v rows validity := by
    refine ⟨hs, hcapacity, fun i hi => ?_⟩
    have hi' := Nat.lt_of_lt_of_le hi hc
    obtain ⟨x, hx, hfit⟩ := ValueVector.get?_of_lt h hi'
    exact ⟨x, hx, hfit, (hsame i hi).trans (get?_of_sound h hi' hx)⟩
  have hstored : storedScheme? (header.encode ++ bitmap.getD [] ++ stored.bytes) =
      some stored.scheme := by
    rw [storedScheme?, hheader]
    exact hscheme
  have hdecode : decodeBy codecs (header.encode ++ bitmap.getD [] ++ stored.bytes) v.type = (do
      let body ← decodeBody (codecs.ofScheme? 0 stored.scheme) header stored.bytes
      if stored.scheme = .constant then decodeConstant v.type rows validity body
      else do
        let values ← plainValues v.type rows body
        pure (vectorOf v.type validity values)) := by
    simp only [decodeBy, hheader, htag, hscheme, hnulls, ok_bind, ne_eq, not_true_eq_false, if_false]
    rfl
  have hconstant : ∀ bytes : Bytes, header.bodyLength = bytes.length →
      decodeBody (codecs.ofScheme? 0 .constant) header bytes = .ok bytes := by
    intro bytes hlen
    unfold decodeBody
    simp [Codecs.ofScheme?, hlen]
  rw [hdecode, hstored]
  have hnested := isNested_of_sound h
  rcases body_cases hnested hbody with ⟨hpos, huniform, rfl⟩ |
    ⟨x, bytes, hpos, huniform, hbytes, rfl⟩ | ⟨raw, hraw, rfl⟩
  · rw [hconstant [] rfl, ok_bind, if_pos rfl]
    exact keptIn_allNull hmarked hpos huniform _
  · rw [hconstant bytes rfl, ok_bind, if_pos rfl]
    obtain ⟨v', hv', hkept⟩ := keptIn_same hmarked hnested huniform hbytes
    refine ⟨v', hv', hkept.type, hkept.capacity, fun i hi => ?_⟩
    obtain ⟨x, y, hx, hy, hxy, -⟩ := hkept.slots i hi
    exact ⟨x, y, hx, hy, hxy, fun hne => absurd rfl hne⟩
  · have hlen := length_compressed (codecs.ofScheme? level preferred) raw
    obtain ⟨hread, hplain⟩ := decodeBody_compressed hf (hlen ▸ hsmall) (h := header) hlen
    obtain ⟨values, hvalues, hkept⟩ := keptIn_plain hmarked h hc hraw _
    refine ⟨_, ?_, hkept⟩
    rw [hread, ok_bind, if_neg hplain, hvalues]
    rfl

/-- **A vector is read back** from the bytes of its first slots, up to values that are the same. -/
theorem decode_encode (h : v.Sound) (hc : count ≤ v.capacity) {preferred : Scheme}
    (hf : preferred.Faithful) {b : Bytes} (hok : encode v count preferred = .ok b) :
    ∃ v', decode b v.type = .ok v' ∧ v'.capacity = count ∧
      ∀ i < count, ∃ x y, v.get? i = some x ∧ v'.get? i = some y ∧ y.same x = true := by
  obtain ⟨v', hv', hkept⟩ := decodeBy_encodeBy h hc hf.restoresScheme hok
  refine ⟨v', hv', hkept.capacity, fun i hi => ?_⟩
  obtain ⟨x, y, hx, hy, hxy, -⟩ := hkept.slots i hi
  exact ⟨x, y, hx, hy, hxy⟩

end SegmentImage
end ColumnStore
