/-
# The manifest is read back

A manifest is written with plain characters only, which stand for themselves.  Its numbers and its
strings are read as what they were (`Manifest.parse?_render`).
-/

import ColumnStore.Proofs.Checkpoint.Files

namespace ColumnStore

/-! ## Plain text -/

/-- Characters that stand for themselves between quotes. -/
def Json.IsPlain (c : Char) : Prop := c ≠ '"' ∧ c ≠ '\\' ∧ 32 ≤ c.toNat ∧ c.toNat < 128

instance (c : Char) : Decidable (Json.IsPlain c) := by
  unfold Json.IsPlain
  infer_instance

theorem Json.isPlain_of_all {cs : List Char} (h : cs.all (Json.IsPlain ·) = true) :
    ∀ c ∈ cs, Json.IsPlain c :=
  fun c hc => of_decide_eq_true (List.all_eq_true.mp h c hc)

theorem Bytes.ofString_ofList_cons {c : Char} (h : c.toNat < 128) (cs : List Char) :
    Bytes.ofString (String.ofList (c :: cs)) =
      UInt8.ofNat c.toNat :: Bytes.ofString (String.ofList cs) := by
  have hc : String.utf8EncodeChar c = [UInt8.ofNat c.toNat] := by
    have hle : c.val.toNat ≤ 127 := Nat.le_of_lt_succ h
    rw [String.utf8EncodeChar]
    exact if_pos hle
  rw [ofString, ofString, String.toUTF8, String.toUTF8, String.toByteArray_ofList,
    String.toByteArray_ofList, List.utf8Encode_cons, ByteArray.data_append, Array.toList_append,
    List.utf8Encode_singleton, hc]
  rfl

/-- **Plain text has a byte for every character.** -/
theorem Bytes.ofString_plain {cs : List Char} (h : ∀ c ∈ cs, c.toNat < 128) :
    Bytes.ofString (String.ofList cs) = cs.map fun c => UInt8.ofNat c.toNat := by
  induction cs with
  | nil => rfl
  | cons c cs ih =>
    rw [ofString_ofList_cons (h c List.mem_cons_self), List.map_cons,
      ih fun d hd => h d (List.mem_cons_of_mem _ hd)]

namespace Json

theorem ofNat_toNat_byte {c : Char} (h : c.toNat < 128) :
    Char.ofNat (UInt8.ofNat c.toNat).toNat = c := by
  rw [UInt8.toNat_ofNat', Nat.mod_eq_of_lt (Nat.lt_trans h (by decide)), Char.ofNat_toNat]

/-- The characters that are read are those that were written. -/
theorem chars_of_bytes {cs : List Char} (h : ∀ c ∈ cs, c.toNat < 128) :
    (Bytes.ofString (String.ofList cs)).map (fun x => Char.ofNat x.toNat) = cs := by
  rw [Bytes.ofString_plain h, List.map_map]
  exact (List.map_congr_left fun c hc => ofNat_toNat_byte (h c hc)).trans (List.map_id cs)

/-! ## Strings -/

theorem escape_plain {c : Char} (h : IsPlain c) : escape c = [c] := by
  obtain ⟨hq, hb, hlow, -⟩ := h
  unfold escape
  split
  all_goals first
    | (rename_i hn; omega)
    | rfl
    | skip
  rw [if_neg (by simp [hq, hb]), if_neg (by omega)]

theorem toList_quote {cs : List Char} (h : ∀ c ∈ cs, IsPlain c) :
    (quote (String.ofList cs)).toList = '"' :: (cs ++ ['"']) := by
  have hflat : cs.flatMap escape = cs := by
    induction cs with
    | nil => rfl
    | cons c cs ih =>
      rw [List.flatMap_cons, escape_plain (h c List.mem_cons_self),
        ih fun d hd => h d (List.mem_cons_of_mem _ hd)]
      rfl
  rw [quote, String.toList_ofList, String.toList_ofList, hflat]
  rfl

theorem pieces_plain {cs : List Char} (h : ∀ c ∈ cs, IsPlain c) (rest : List Char) :
    pieces (cs ++ '"' :: rest) = some (cs.map fun c => .byte (UInt8.ofNat c.toNat), rest) := by
  induction cs with
  | nil => rw [List.nil_append, pieces, List.map_nil]
  | cons c cs ih =>
    obtain ⟨hq, hb, hlow, -⟩ := h c List.mem_cons_self
    rw [List.cons_append, pieces, if_neg, ih fun d hd => h d (List.mem_cons_of_mem _ hd)]
    · rfl
    · simp [hb]
      omega
    all_goals first | exact hq | exact hb | skip
    all_goals
      intros
      subst_vars
      exact hb rfl

theorem join?_plain (b : Bytes) : join? (b.map .byte) = some b := by
  induction b with
  | nil => rfl
  | cons x b ih => rw [List.map_cons, join?, ih, Option.map_some]

/-- **A plain string is read back.** -/
theorem stringBody_plain {cs : List Char} (h : ∀ c ∈ cs, IsPlain c) (rest : List Char) :
    stringBody (cs ++ '"' :: rest) = some (some (String.ofList cs), rest) := by
  have hbytes : cs.map (fun c => Piece.byte (UInt8.ofNat c.toNat)) =
      (Bytes.ofString (String.ofList cs)).map Piece.byte := by
    rw [Bytes.ofString_plain fun c hc => (h c hc).2.2.2, List.map_map]
    rfl
  rw [stringBody, pieces_plain h, hbytes, Option.map_some]
  dsimp only
  rw [join?_plain, Option.bind_some, Utf8.decode_ofString]
  rfl

/-! ## Numbers -/

theorem head_toDigits {n : Nat} (h : 0 < n) : (Nat.toDigits 10 n).head? ≠ some '0' := by
  induction n using Nat.strongRecOn with
  | ind n ih =>
    by_cases hn : n < 10
    · rw [Nat.toDigits_of_lt_base hn, List.head?_cons]
      have : n = 1 ∨ n = 2 ∨ n = 3 ∨ n = 4 ∨ n = 5 ∨ n = 6 ∨ n = 7 ∨ n = 8 ∨ n = 9 := by omega
      rcases this with rfl | rfl | rfl | rfl | rfl | rfl | rfl | rfl | rfl <;> decide
    · have hrec := ih (n / 10) (by omega) (by omega)
      have hne : Nat.toDigits 10 (n / 10) ≠ [] := List.ne_nil_of_length_pos Nat.length_toDigits_pos
      rw [Nat.toDigits_of_base_le (by decide) (by omega), List.head?_append_of_ne_nil _ hne]
      exact hrec

/-- The digits of a number. -/
def digitsOf (n : Nat) : List Nat := (Nat.toDigits 10 n).map (·.toNat - 48)

theorem ofDigits_digitsOf (n : Nat) : JsonNumber.ofDigits (digitsOf n) = n := by
  have h : Nat.ofDigitChars 10 (Nat.toDigits 10 n) 0 = n :=
    Nat.ofDigitChars_toDigits (by decide) (by decide)
  rw [JsonNumber.ofDigits, digitsOf, List.foldl_map]
  exact h

/-- What comes behind a number in a record. -/
def Ends (rest : List Char) : Prop := ∃ c more, rest = c :: more ∧ (c = ',' ∨ c = '\x7d')

theorem digits_toDigits (n : Nat) {rest : List Char} (h : Ends rest) :
    digits (Nat.toDigits 10 n ++ rest) = (digitsOf n, rest) := by
  have hall : ∀ c ∈ Nat.toDigits 10 n, c.isDigit = true := fun c hc =>
    Nat.isDigit_of_mem_toDigits (by decide) (by decide) hc
  obtain ⟨c, more, rfl, hc⟩ := h
  have hd : c.isDigit = false := by rcases hc with rfl | rfl <;> decide
  rw [digits, List.takeWhile_append_of_pos hall, List.dropWhile_append_of_pos hall,
    List.takeWhile_cons_of_neg (by simp [hd]), List.dropWhile_cons_of_neg (by simp [hd]),
    List.append_nil]
  rfl

/-- The JSON number without a sign, a point or an exponent. -/
def ofNat (n : Nat) : Json := .number { negative := false, whole := digitsOf n, fraction := [], exponent := none }

theorem natBelow?_ofNat {n bound : Nat} (h : n < bound) : (ofNat n).natBelow? bound = some n := by
  simp [ofNat, natBelow?, JsonNumber.natBelow?, JsonNumber.integer?, ofDigits_digitsOf, h]

theorem number?_toDigits (n : Nat) {rest : List Char} (h : Ends rest) :
    number? false (Nat.toDigits 10 n ++ rest) = some (ofNat n, rest) := by
  have hlead : ¬(((digitsOf n).isEmpty ||
      (decide ((digitsOf n).length > 1) && decide ((digitsOf n).head? = some 0))) = true) := by
    have hne : Nat.toDigits 10 n ≠ [] := List.ne_nil_of_length_pos Nat.length_toDigits_pos
    by_cases hn : n < 10
    · simp [digitsOf, Nat.toDigits_of_lt_base hn]
    · have hhead := head_toDigits (n := n) (by omega)
      have hall : ∀ c ∈ Nat.toDigits 10 n, c.isDigit = true := fun c hc =>
        Nat.isDigit_of_mem_toDigits (by decide) (by decide) hc
      rw [digitsOf]
      cases hd : Nat.toDigits 10 n with
      | nil => exact absurd hd hne
      | cons c cs =>
        rw [hd] at hhead hall
        have hdigit := hall c List.mem_cons_self
        have hc : c ≠ '0' := fun he => hhead (by rw [he]; rfl)
        simp only [List.map_cons, List.isEmpty_cons, Bool.false_or, List.head?_cons,
          Bool.and_eq_true, decide_eq_true_eq, not_and, Option.some.injEq]
        intro _ hz
        refine hc (Char.toNat_inj.mp ?_)
        simp only [Char.isDigit, Bool.and_eq_true, decide_eq_true_eq] at hdigit
        have hlow : 48 ≤ c.toNat := hdigit.1
        change c.toNat = 48
        omega
  rw [number?, digits_toDigits n h]
  simp only
  rw [if_neg hlead]
  obtain ⟨c, more, rfl, hc⟩ := h
  rcases hc with rfl | rfl <;> rfl

/-! ## Values in front of the end of a field -/

/-- A text that is read as a value. -/
def ReadsAs (least : Nat) (cs : List Char) (v : Json) : Prop :=
  ∀ k, least ≤ k → ∀ rest, Ends rest → value? k (cs ++ rest) = some (v, rest)

theorem ReadsAs.mono {m n : Nat} {cs : List Char} {v : Json} (h : ReadsAs m cs v) (hle : m ≤ n) :
    ReadsAs n cs v := fun k hk => h k (Nat.le_trans hle hk)

theorem skipSpace_cons {c : Char} (h : isSpace c = false) (cs : List Char) :
    skipSpace (c :: cs) = c :: cs := List.dropWhile_cons_of_neg (by simp [h])

theorem Ends.skipSpace {rest : List Char} (h : Ends rest) : skipSpace rest = rest := by
  obtain ⟨c, more, rfl, hc⟩ := h
  exact skipSpace_cons (by rcases hc with rfl | rfl <;> decide) more

theorem readsAs_string {cs : List Char} (h : ∀ c ∈ cs, IsPlain c) :
    ReadsAs 1 ('"' :: (cs ++ ['"'])) (.string (some (String.ofList cs))) := by
  intro k hk rest _
  obtain ⟨k, rfl⟩ : ∃ j, k = j + 1 := ⟨k - 1, by omega⟩
  have hbody : stringBody ((cs ++ ['"']) ++ rest) = some (some (String.ofList cs), rest) := by
    rw [List.append_assoc]
    exact stringBody_plain h rest
  rw [List.cons_append, value?, skipSpace_cons (by decide)]
  simp only [hbody, Option.map_some]

theorem readsAs_nat (n : Nat) : ReadsAs 1 (Nat.toDigits 10 n) (ofNat n) := by
  intro k hk rest h
  obtain ⟨k, rfl⟩ : ∃ j, k = j + 1 := ⟨k - 1, by omega⟩
  have hnumber := number?_toDigits n h
  have hall : ∀ c ∈ Nat.toDigits 10 n, c.isDigit = true := fun c hc =>
    Nat.isDigit_of_mem_toDigits (by decide) (by decide) hc
  cases hd : Nat.toDigits 10 n with
  | nil => exact absurd hd (List.ne_nil_of_length_pos Nat.length_toDigits_pos)
  | cons c cs =>
    rw [hd] at hnumber hall
    have hdigit := hall c List.mem_cons_self
    have hne (other : Char) (ho : other.isDigit = false) : c ≠ other := by
      rintro rfl
      rw [ho] at hdigit
      cases hdigit
    have hspace : isSpace c = false := by
      simp [isSpace, hne ' ' (by decide), hne '\n' (by decide), hne '\t' (by decide),
        hne '\r' (by decide)]
    rw [List.cons_append] at hnumber ⊢
    rw [value?, skipSpace_cons hspace]
    split
    all_goals first
      | exact hnumber
      | (rename_i heq; exact absurd (List.cons.inj heq).1 (hne _ (by decide)))

/-! ## Records -/

/-- A field of a record as it is written. -/
structure Member where
  name : List Char
  text : List Char
  value : Json
  plain : ∀ c ∈ name, IsPlain c

namespace Member

variable {least : Nat}

/-- The name in quotes, a colon and the text of the value. -/
def chars (f : Member) : List Char := '"' :: (f.name ++ '"' :: ':' :: f.text)

/-- The text stands for the value. -/
def Reads (least : Nat) (f : Member) : Prop := ReadsAs least f.text f.value

/-- The field as it is read. -/
def entry (f : Member) : Option String × Json := (some (String.ofList f.name), f.value)

theorem toList_field (name value : List Char) (v : Json) (h : ∀ c ∈ name, IsPlain c) :
    (Manifest.field (String.ofList name) (String.ofList value)).toList =
      (Member.mk name value v h).chars := by
  rw [Manifest.field, String.toList_append, String.toList_append, toList_quote h,
    String.toList_ofList]
  simp [chars]

theorem fields?_more {f : Member} (h : f.Reads least) {k : Nat} (hk : least ≤ k)
    (rest : List Char) :
    fields? (k + 1) (f.chars ++ ',' :: rest) =
      (fields? k rest).map fun (fs, rest) => (f.entry :: fs, rest) := by
  have hbody : stringBody ((f.name ++ '"' :: ':' :: f.text) ++ ',' :: rest) =
      some (some (String.ofList f.name), ':' :: (f.text ++ ',' :: rest)) := by
    rw [List.append_assoc]
    exact stringBody_plain f.plain _
  rw [chars, List.cons_append, fields?, skipSpace_cons (by decide)]
  simp only [hbody, Option.bind_eq_bind, Option.bind_some,
    skipSpace_cons (show isSpace ':' = false by decide),
    skipSpace_cons (show isSpace ',' = false by decide),
    h k hk (',' :: rest) ⟨',', rest, rfl, .inl rfl⟩]
  rfl

theorem fields?_last {f : Member} (h : f.Reads least) {k : Nat} (hk : least ≤ k)
    (rest : List Char) :
    fields? (k + 1) (f.chars ++ '\x7d' :: rest) = some ([f.entry], rest) := by
  have hbody : stringBody ((f.name ++ '"' :: ':' :: f.text) ++ '\x7d' :: rest) =
      some (some (String.ofList f.name), ':' :: (f.text ++ '\x7d' :: rest)) := by
    rw [List.append_assoc]
    exact stringBody_plain f.plain _
  rw [chars, List.cons_append, fields?, skipSpace_cons (by decide)]
  simp only [hbody, Option.bind_eq_bind, Option.bind_some,
    skipSpace_cons (show isSpace ':' = false by decide),
    skipSpace_cons (show isSpace '\x7d' = false by decide),
    h k hk ('\x7d' :: rest) ⟨'\x7d', rest, rfl, .inr rfl⟩]
  rfl

end Member

/-- The text of a record of three fields. -/
def recordChars (a b c : Member) : List Char :=
  '\x7b' :: (a.chars ++ ',' :: (b.chars ++ ',' :: (c.chars ++ ['\x7d'])))

/-- **A record is read as its fields.** -/
theorem value?_record {least : Nat} {a b c : Member} (ha : a.Reads least) (hb : b.Reads least)
    (hc : c.Reads least) {k : Nat} (hk : least + 4 ≤ k) (rest : List Char) :
    value? k (recordChars a b c ++ rest) = some (.object [a.entry, b.entry, c.entry], rest) := by
  obtain ⟨k, rfl⟩ : ∃ j, k = j + 4 := ⟨k - 4, by omega⟩
  have hfields : fields? (k + 3) (a.chars ++ ',' :: (b.chars ++ ',' :: (c.chars ++ '\x7d' :: rest)))
      = some ([a.entry, b.entry, c.entry], rest) := by
    rw [Member.fields?_more ha (by omega), Member.fields?_more hb (by omega),
      Member.fields?_last hc (by omega)]
    rfl
  have htext : recordChars a b c ++ rest =
      '\x7b' :: (a.chars ++ ',' :: (b.chars ++ ',' :: (c.chars ++ '\x7d' :: rest))) := by
    simp [recordChars]
  have hquote : ∃ more, a.chars ++ ',' :: (b.chars ++ ',' :: (c.chars ++ '\x7d' :: rest)) =
      '"' :: more := ⟨_, rfl⟩
  rw [htext, value?, skipSpace_cons (by decide)]
  obtain ⟨more, hmore⟩ := hquote
  rw [hmore] at hfields ⊢
  simp only [skipSpace_cons (show isSpace '"' = false by decide)]
  change (fields? (k + 3) ('"' :: more)).map _ = _
  rw [hfields, Option.map_some]

theorem readsAs_record {least : Nat} {a b c : Member} (ha : a.Reads least) (hb : b.Reads least)
    (hc : c.Reads least) :
    ReadsAs (least + 4) (recordChars a b c) (.object [a.entry, b.entry, c.entry]) :=
  fun _ hk rest _ => value?_record ha hb hc hk rest

/-- The fields of a record are found by their names. -/
theorem record?_entries {a b c : Member} (hab : String.ofList a.name ≠ String.ofList b.name)
    (hac : String.ofList a.name ≠ String.ofList c.name)
    (hbc : String.ofList b.name ≠ String.ofList c.name) :
    (Json.object [a.entry, b.entry, c.entry]).record?
        [String.ofList a.name, String.ofList b.name, String.ofList c.name] =
      some [a.value, b.value, c.value] := by
  simp [record?, Member.entry, hab, hac, hbc, Ne.symm hab, Ne.symm hac, Ne.symm hbc]

end Json

/-! ## The manifest -/

namespace Manifest

open Json

/-- A field with a number. -/
def numberMember (name : List Char) (h : ∀ c ∈ name, IsPlain c) (n : Nat) : Member :=
  { name, text := Nat.toDigits 10 n, value := Json.ofNat n, plain := h }

/-- A field with a text. -/
def textMember (name : List Char) (h : ∀ c ∈ name, IsPlain c) (cs : List Char) : Member :=
  { name, text := '"' :: (cs ++ ['"']), value := .string (some (String.ofList cs)), plain := h }

theorem toList_record (a b c : Member) {f g h : String} (hf : f.toList = a.chars)
    (hg : g.toList = b.chars) (hh : h.toList = c.chars) :
    (record [f, g, h]).toList = recordChars a b c := by
  simp [record, recordChars, hf, hg, hh]

/-- Every character of a record has one byte. -/
theorem recordChars_small {a b c : Member} (ha : ∀ d ∈ a.text, d.toNat < 128)
    (hb : ∀ d ∈ b.text, d.toNat < 128) (hc : ∀ d ∈ c.text, d.toNat < 128) :
    ∀ d ∈ recordChars a b c, d.toNat < 128 := by
  have hmember {f : Member} (h : ∀ d ∈ f.text, d.toNat < 128) : ∀ d ∈ f.chars, d.toNat < 128 := by
    intro d hd
    simp only [Member.chars, List.mem_cons, List.mem_append] at hd
    rcases hd with rfl | hd | rfl | rfl | hd
    · decide
    · exact (f.plain d hd).2.2.2
    · decide
    · decide
    · exact h d hd
  intro d hd
  simp only [recordChars, List.mem_cons, List.mem_append, List.not_mem_nil, or_false] at hd
  rcases hd with rfl | hd | rfl | hd | rfl | hd | rfl
  · decide
  · exact hmember ha d hd
  · decide
  · exact hmember hb d hd
  · decide
  · exact hmember hc d hd
  · decide

theorem toDigits_small (n : Nat) : ∀ d ∈ Nat.toDigits 10 n, d.toNat < 128 := by
  intro d hd
  have hdigit := Nat.isDigit_of_mem_toDigits (by decide) (by decide) hd
  simp only [Char.isDigit, Bool.and_eq_true, decide_eq_true_eq] at hdigit
  have hle : d.toNat ≤ 57 := hdigit.2
  omega

theorem numberMember_reads (name : List Char) (h : ∀ c ∈ name, IsPlain c) (n : Nat) :
    (numberMember name h n).Reads 1 := readsAs_nat n

theorem toList_number (name : List Char) (h : ∀ c ∈ name, IsPlain c) (n : Nat) :
    (field (String.ofList name) (toString n)).toList = (numberMember name h n).chars :=
  Member.toList_field name (Nat.toDigits 10 n) (Json.ofNat n) h

section

variable (p : BlockPointer)

def blockMember : Member := numberMember "block_id".toList (isPlain_of_all (by decide)) p.block
def countMember : Member := numberMember "block_count".toList (isPlain_of_all (by decide)) p.count
def lengthMember : Member := numberMember "length".toList (isPlain_of_all (by decide)) p.length

/-- The record of a pointer. -/
def pointerMember : Member where
  name := "metadata".toList
  text := recordChars (blockMember p) (countMember p) (lengthMember p)
  value := .object [(blockMember p).entry, (countMember p).entry, (lengthMember p).entry]
  plain := isPlain_of_all (by decide)

theorem pointerMember_reads : (pointerMember p).Reads 5 :=
  readsAs_record (numberMember_reads _ _ _) (numberMember_reads _ _ _) (numberMember_reads _ _ _)

theorem toList_renderPointer :
    (renderPointer p).toList = recordChars (blockMember p) (countMember p) (lengthMember p) :=
  toList_record _ _ _ (toList_number "block_id".toList (isPlain_of_all (by decide)) _)
    (toList_number "block_count".toList (isPlain_of_all (by decide)) _)
    (toList_number "length".toList (isPlain_of_all (by decide)) _)

/-- **A pointer is read back.** -/
theorem pointer?_value {p : BlockPointer} (hblock : p.block < UInt64.size)
    (hcount : p.count < UInt32.size) (hlength : p.length < UInt64.size) :
    pointer? (pointerMember p).value = some p := by
  have hrecord : (pointerMember p).value.record? ["block_id", "block_count", "length"] =
      some [Json.ofNat p.block, Json.ofNat p.count, Json.ofNat p.length] :=
    record?_entries (a := blockMember p) (b := countMember p) (c := lengthMember p)
      (show String.ofList "block_id".toList ≠ String.ofList "block_count".toList by decide)
      (show String.ofList "block_id".toList ≠ String.ofList "length".toList by decide)
      (show String.ofList "block_count".toList ≠ String.ofList "length".toList by decide)
  rw [pointer?, hrecord]
  simp only [Option.bind_eq_bind, Option.bind_some, natBelow?_ofNat hblock, natBelow?_ofNat hcount,
    natBelow?_ofNat hlength]
  rfl

end

variable {m : Manifest}

def iterationMember (m : Manifest) : Member :=
  numberMember "iteration".toList (isPlain_of_all (by decide)) m.iteration

def fileMember (m : Manifest) : Member :=
  textMember "file".toList (isPlain_of_all (by decide)) m.file.toList

/-- The characters of the text of a manifest. -/
def chars (m : Manifest) : List Char :=
  recordChars (iterationMember m) (fileMember m) (pointerMember m.metadata)

theorem toList_render (hfile : ∀ c ∈ m.file.toList, IsPlain c) : m.render.toList = m.chars := by
  have hquote : (Json.quote m.file).toList = (fileMember m).text := by
    have := toList_quote hfile
    rwa [String.ofList_toList] at this
  refine toList_record _ _ _
    (toList_number "iteration".toList (isPlain_of_all (by decide)) _) ?_ ?_
  · have := Member.toList_field "file".toList (Json.quote m.file).toList (fileMember m).value
      (isPlain_of_all (by decide))
    rw [String.ofList_toList, String.ofList_toList] at this
    rw [this, Member.chars, Member.chars, hquote]
    rfl
  · have := Member.toList_field "metadata".toList (renderPointer m.metadata).toList
      (pointerMember m.metadata).value (isPlain_of_all (by decide))
    rw [String.ofList_toList, String.ofList_toList] at this
    rw [this, Member.chars, Member.chars, toList_renderPointer]
    rfl

/-- Every character of a manifest has one byte. -/
theorem chars_small (hfile : ∀ c ∈ m.file.toList, IsPlain c) : ∀ d ∈ m.chars, d.toNat < 128 := by
  refine recordChars_small (toDigits_small _) ?_ (recordChars_small (toDigits_small _)
    (toDigits_small _) (toDigits_small _))
  intro d hd
  rcases List.mem_cons.mp hd with rfl | hd
  · decide
  · rcases List.mem_append.mp hd with hd | hd
    · exact (hfile d hd).2.2.2
    · rw [List.mem_singleton.mp hd]
      decide

theorem length_recordChars (a b c : Member) : (recordChars a b c).length =
    a.name.length + a.text.length + (b.name.length + b.text.length) +
      (c.name.length + c.text.length) + 13 := by
  have hmember (f : Member) : f.chars.length = f.name.length + f.text.length + 3 := by
    simp only [Member.chars, List.length_cons, List.length_append]
    omega
  simp only [recordChars, List.length_cons, List.length_append, List.length_nil, hmember]
  omega

theorem length_numberMember {name : List Char} (h : ∀ c ∈ name, IsPlain c) {n : Nat}
    (hn : n < UInt64.size) : (numberMember name h n).text.length ≤ 20 :=
  (Nat.length_toDigits_le_iff (by decide) (by decide)).mpr (Nat.lt_trans hn (by decide))

/-- **A manifest is shorter than what is in front of the blocks** of a block file. -/
theorem length_render_lt (hfile : ∀ c ∈ m.file.toList, IsPlain c)
    (hname : m.file.toList.length ≤ Disk.longestName) (hiteration : m.iteration < UInt64.size)
    (hblock : m.metadata.block < UInt64.size) (hcount : m.metadata.count < UInt32.size)
    (hlength : m.metadata.length < UInt64.size) :
    (Bytes.ofString m.render).length < BlockFile.headerArea := by
  have h₁ : (iterationMember m).text.length ≤ 20 := length_numberMember _ hiteration
  have h₂ : (blockMember m.metadata).text.length ≤ 20 := length_numberMember _ hblock
  have h₃ : (countMember m.metadata).text.length ≤ 20 :=
    length_numberMember _ (Nat.lt_trans hcount (by decide))
  have h₄ : (lengthMember m.metadata).text.length ≤ 20 := length_numberMember _ hlength
  have h₅ : (fileMember m).text.length ≤ 2 + Disk.longestName := by
    rw [fileMember, textMember, List.length_cons, List.length_append, List.length_singleton]
    omega
  have h₆ : (pointerMember m.metadata).text.length ≤ 100 := by
    change (recordChars _ _ _).length ≤ 100
    rw [length_recordChars, show (blockMember m.metadata).name.length = 8 from rfl,
      show (countMember m.metadata).name.length = 11 from rfl,
      show (lengthMember m.metadata).name.length = 6 from rfl]
    omega
  have hlist : m.render = String.ofList m.chars := by rw [← toList_render hfile, String.ofList_toList]
  have hnames : (iterationMember m).name.length = 9 ∧ (fileMember m).name.length = 4 ∧
      (pointerMember m.metadata).name.length = 8 := ⟨rfl, rfl, rfl⟩
  rw [hlist, Bytes.ofString_plain (chars_small hfile), List.length_map, chars, length_recordChars,
    hnames.1, hnames.2.1, hnames.2.2]
  rw [Disk.longestName] at h₅
  rw [BlockFile.headerArea]
  omega

/-- **A manifest is read back.** -/
theorem parse?_render (hfile : ∀ c ∈ m.file.toList, IsPlain c)
    (hiteration : m.iteration < UInt64.size) (hblock : m.metadata.block < UInt64.size)
    (hcount : m.metadata.count < UInt32.size) (hlength : m.metadata.length < UInt64.size) :
    parse? (Bytes.ofString m.render) = some m := by
  have ha : (iterationMember m).Reads 5 := (numberMember_reads _ _ _).mono (by decide)
  have hb : (fileMember m).Reads 5 := (readsAs_string hfile).mono (by decide)
  have hc : (pointerMember m.metadata).Reads 5 := pointerMember_reads m.metadata
  have hlong : 9 ≤ m.chars.length + 1 := by
    simp only [chars, recordChars, Member.chars, List.length_cons, List.length_append]
    omega
  have hvalue := value?_record ha hb hc (k := m.chars.length + 1) hlong []
  rw [List.append_nil] at hvalue
  have hparse : Json.parse? (Bytes.ofString m.render) = some (.object
      [(iterationMember m).entry, (fileMember m).entry, (pointerMember m.metadata).entry]) := by
    have htext : m.render = String.ofList m.chars := by
      rw [← toList_render hfile, String.ofList_toList]
    rw [Json.parse?, htext, chars_of_bytes (chars_small hfile)]
    change (Json.value? (m.chars.length + 1) m.chars).bind _ = _
    rw [show m.chars = recordChars (iterationMember m) (fileMember m) (pointerMember m.metadata)
      from rfl] at hvalue ⊢
    rw [hvalue]
    rfl
  have hrecord := record?_entries (a := iterationMember m) (b := fileMember m)
    (c := pointerMember m.metadata)
    (show String.ofList "iteration".toList ≠ String.ofList "file".toList by decide)
    (show String.ofList "iteration".toList ≠ String.ofList "metadata".toList by decide)
    (show String.ofList "file".toList ≠ String.ofList "metadata".toList by decide)
  have hnames : [String.ofList (iterationMember m).name, String.ofList (fileMember m).name,
      String.ofList (pointerMember m.metadata).name] = ["iteration", "file", "metadata"] := rfl
  rw [hnames] at hrecord
  rw [parse?, hparse]
  simp only [Option.bind_eq_bind, Option.bind_some, hrecord]
  rw [show (iterationMember m).value.natBelow? UInt64.size = some m.iteration from
      natBelow?_ofNat hiteration, pointer?_value hblock hcount hlength]
  simp only [Option.bind_some]
  rw [show (fileMember m).value.text? = some m.file by
    change some (String.ofList m.file.toList) = some m.file
    rw [String.ofList_toList]]
  rfl

end Manifest
end ColumnStore
