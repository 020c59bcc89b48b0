/-
# What coders read back

Everything that goes into the log is read back, whatever follows: its lengths are below `2 ^ 64`
because its bytes are so few, and its numbers have 64 bits.
-/

import ColumnStore.Log.Entry
import Mathlib.Data.List.Basic
import Mathlib.Tactic.Common

namespace ColumnStore
namespace Coder

variable {α β : Type}

theorem word_readsBack {n : Nat} (h : n < UInt64.size) : word.ReadsBack n := nat_readsBack h

theorem map_readsBack {c : Coder α} {pack : α → β} {unpack : β → α} {b : β}
    (hp : pack (unpack b) = b) (h : c.ReadsBack (unpack b)) : (map c pack unpack).ReadsBack b := by
  intro rest
  simp only [map, h rest, Option.map_some, hp]

theorem text_readsBack {s : String} (h : (Bytes.ofString s).length < UInt64.size) :
    text.ReadsBack s := by
  intro rest
  have hn := word_readsBack h (Bytes.ofString s ++ rest)
  have hs := Bytes.split?_append (Bytes.ofString s) rest
  simp only [text, List.append_assoc, hn, hs, Option.bind_eq_bind, Option.bind_some,
    Utf8.decode_ofString]

theorem length_text (s : String) : (text.encode s).length = 8 + (Bytes.ofString s).length := by
  simp [text, word, nat]

/-- A text in few bytes is read back. -/
theorem text_readsBack_of_length {s : String} (h : (text.encode s).length < UInt64.size) :
    text.ReadsBack s := by
  rw [length_text] at h
  exact text_readsBack (by omega)

/-- **Values behind their number are read back.** -/
theorem decodeMany_readsBack {c : Coder α} {vs : List α} (h : ∀ v ∈ vs, c.ReadsBack v)
    (rest : Bytes) : decodeMany c.decode vs.length (vs.flatMap c.encode ++ rest) =
      some (vs, rest) := by
  induction vs with
  | nil => rfl
  | cons v more ih =>
    have hv := h v List.mem_cons_self (more.flatMap c.encode ++ rest)
    have hmore := ih fun w hw => h w (List.mem_cons_of_mem _ hw)
    simp only [List.flatMap_cons, List.append_assoc, List.length_cons, decodeMany, hv, hmore,
      Option.bind_eq_bind, Option.bind_some]

theorem list_readsBack {c : Coder α} {vs : List α} (hlen : vs.length < UInt64.size)
    (h : ∀ v ∈ vs, c.ReadsBack v) : (list c).ReadsBack vs := by
  intro rest
  have hn := word_readsBack hlen (vs.flatMap c.encode ++ rest)
  simp only [list, List.append_assoc, hn, Option.bind_eq_bind, Option.bind_some,
    decodeMany_readsBack h]

/-- There are no more values than bytes when each value has one. -/
theorem length_le_flatMap {f : α → Bytes} (h : ∀ v, 0 < (f v).length) (vs : List α) :
    vs.length ≤ (vs.flatMap f).length := by
  induction vs with
  | nil => exact Nat.le_refl _
  | cons v more ih =>
    have hv := h v
    simp only [List.length_cons, List.flatMap_cons, List.length_append]
    omega

theorem length_le_of_mem {f : α → Bytes} {vs : List α} {v : α} (h : v ∈ vs) :
    (f v).length ≤ (vs.flatMap f).length := by
  obtain ⟨front, back, rfl⟩ := List.append_of_mem h
  simp only [List.flatMap_append, List.flatMap_cons, List.length_append]
  omega

/-- A list in few bytes is read back. -/
theorem list_readsBack_of_length {c : Coder α} {vs : List α}
    (hpos : ∀ v, 0 < (c.encode v).length) (hlen : ((list c).encode vs).length < UInt64.size)
    (h : ∀ v ∈ vs, (c.encode v).length < UInt64.size → c.ReadsBack v) : (list c).ReadsBack vs := by
  simp only [list, word, nat, List.length_append, Bytes.length_ofNat] at hlen
  have hle := length_le_flatMap hpos vs
  refine list_readsBack (by omega) fun v hv => h v hv ?_
  have := length_le_of_mem (f := c.encode) hv
  omega

/-- **A pair in few bytes is read back.** -/
theorem pair_readsBack_of_length {c : Coder α} {d : Coder β} {a : α} {b : β}
    (hlen : ((pair c d).encode (a, b)).length < UInt64.size)
    (ha : (c.encode a).length < UInt64.size → c.ReadsBack a)
    (hb : (d.encode b).length < UInt64.size → d.ReadsBack b) : (pair c d).ReadsBack (a, b) := by
  simp only [pair, List.length_append] at hlen
  exact pair_readsBack (ha (by omega)) (hb (by omega))

/-! ## Types -/

theorem form_readsBack {n : Nat} (h : n < 11) : form.ReadsBack n :=
  nat_readsBack (Nat.lt_trans h (by decide))

theorem length_form (n : Nat) : (form.encode n).length = 4 := Bytes.length_ofNat 4 n

/-- A type that is not nested is read back. -/
theorem decodeType_plain {t : ColumnType} (ht : t.isNested = false) (b : UInt8)
    (bound rest : Bytes) :
    decodeType (b :: bound) (encodeType t ++ rest) = some (t, rest) := by
  have henc : encodeType t = form.encode (typeForm t) := by
    cases t <;> first | rfl | cases ht
  have hlt : typeForm t < 9 := by
    cases t <;> first | decide | cases ht
  have hplain : plainType? (typeForm t) = some t := by
    cases t <;> first | rfl | cases ht
  have hn := form_readsBack (Nat.lt_trans hlt (by decide)) rest
  rw [henc]
  simp only [decodeType, hn, Option.bind_eq_bind, Option.bind_some, if_neg (Nat.ne_of_lt hlt),
    hplain]

theorem decodeType_encodeType (t : ColumnType) (bound rest : Bytes)
    (hb : (encodeType t).length ≤ bound.length) :
    decodeType bound (encodeType t ++ rest) = some (t, rest) := by
  induction t generalizing bound with
  | list item ih =>
    simp only [encodeType, List.length_append, length_form] at hb
    obtain ⟨b, bound, rfl⟩ := List.exists_cons_of_length_pos (by omega : 0 < bound.length)
    have hn := form_readsBack (by decide : 9 < 11) (encodeType item ++ rest)
    simp only [List.length_cons] at hb
    simp only [encodeType, List.append_assoc, decodeType, hn, Option.bind_eq_bind,
      Option.bind_some, if_true, ih bound (by omega)]
  | _ =>
    obtain ⟨b, bound, rfl⟩ := List.exists_cons_of_length_pos
      (Nat.lt_of_lt_of_le (by decide) hb : 0 < bound.length)
    exact decodeType_plain rfl b bound rest

/-- **Types are read back.** -/
theorem type_readsBack (t : ColumnType) : type.ReadsBack t := fun rest =>
  decodeType_encodeType t (encodeType t ++ rest) rest (by simp)

/-- **Definitions in few bytes are read back.** -/
theorem definition_readsBack {d : ColumnDefinition}
    (h : (definition.encode d).length < UInt64.size) : definition.ReadsBack d :=
  map_readsBack (by rfl) (pair_readsBack_of_length h text_readsBack_of_length fun _ =>
    type_readsBack d.type)

theorem length_definition_pos (d : ColumnDefinition) : 0 < (definition.encode d).length := by
  simp only [definition, map, pair, List.length_append, length_text]
  omega

/-! ## Values -/

theorem fixed_readsBack {t : ColumnType} {x : Scalar} (hf : x.fits t = true)
    (hn : x.isNull = false) {w : Nat} (hw : t.storage.width? = some w) (rest : Bytes) :
    decodeFixed t (x.fixed ++ rest) = some (x, rest) := by
  have hlen := Scalar.length_fixed hf hn hw
  have hs := Bytes.split?_append x.fixed rest
  rw [hlen] at hs
  have hx := Scalar.ofFixed_fixed hf hn (t := t) (by rw [StorageClass.isFixedWidth, hw]; rfl)
  simp only [decodeFixed, hw, Option.getD_some, hs, Option.map_some, hx]

theorem length_encodeScalar_pos (x : Scalar) : 0 < (encodeScalar x).length := by
  cases x <;> simp only [encodeScalar, List.length_append, length_form] <;> omega

theorem length_le_encodeScalars (xs : List Scalar) : xs.length ≤ (encodeScalars xs).length := by
  induction xs with
  | nil => exact Nat.le_refl _
  | cons x more ih =>
    have := length_encodeScalar_pos x
    simp only [encodeScalars, List.length_append, List.length_cons]
    omega

/-- The form in front of a value is read first. -/
theorem form_decode {n : Nat} (h : n < 11) (rest : Bytes) :
    form.decode (form.encode n ++ rest) = some (n, rest) := form_readsBack h rest

mutual

theorem decodeScalar_encodeScalar (x : Scalar) (bound rest : Bytes)
    (hb : (encodeScalar x).length ≤ bound.length) (hx : (encodeScalar x).length < UInt64.size) :
    decodeScalar bound (encodeScalar x ++ rest) = some (x, rest) := by
  obtain ⟨b, bound, rfl⟩ :=
    List.exists_cons_of_length_pos (Nat.lt_of_lt_of_le (length_encodeScalar_pos x) hb)
  cases x with
  | null =>
    simp only [encodeScalar, decodeScalar, form_decode (by decide : 0 < 11), Option.bind_eq_bind,
      Option.bind_some]
  | boolean v =>
    simp only [encodeScalar, List.append_assoc, decodeScalar, form_decode (by decide : 1 < 11),
      Option.bind_eq_bind, Option.bind_some]
    cases v <;> rfl
  | tinyInt v =>
    simp only [encodeScalar, List.append_assoc, decodeScalar, form_decode (by decide : 2 < 11),
      Option.bind_eq_bind, Option.bind_some]
    exact fixed_readsBack rfl rfl rfl rest
  | smallInt v =>
    simp only [encodeScalar, List.append_assoc, decodeScalar, form_decode (by decide : 3 < 11),
      Option.bind_eq_bind, Option.bind_some]
    exact fixed_readsBack rfl rfl rfl rest
  | integer v =>
    simp only [encodeScalar, List.append_assoc, decodeScalar, form_decode (by decide : 4 < 11),
      Option.bind_eq_bind, Option.bind_some]
    exact fixed_readsBack rfl rfl rfl rest
  | bigInt v =>
    simp only [encodeScalar, List.append_assoc, decodeScalar, form_decode (by decide : 5 < 11),
      Option.bind_eq_bind, Option.bind_some]
    exact fixed_readsBack rfl rfl rfl rest
  | uBigInt v =>
    simp only [encodeScalar, List.append_assoc, decodeScalar, form_decode (by decide : 6 < 11),
      Option.bind_eq_bind, Option.bind_some]
    exact fixed_readsBack rfl rfl rfl rest
  | real v =>
    simp only [encodeScalar, List.append_assoc, decodeScalar, form_decode (by decide : 7 < 11),
      Option.bind_eq_bind, Option.bind_some]
    exact fixed_readsBack rfl rfl rfl rest
  | double v =>
    simp only [encodeScalar, List.append_assoc, decodeScalar, form_decode (by decide : 8 < 11),
      Option.bind_eq_bind, Option.bind_some]
    exact fixed_readsBack rfl rfl rfl rest
  | varchar s =>
    simp only [encodeScalar, List.length_append] at hx
    have hs : text.decode (text.encode s ++ rest) = some (s, rest) :=
      text_readsBack_of_length (by omega) rest
    simp only [encodeScalar, List.append_assoc, decodeScalar, form_decode (by decide : 9 < 11),
      Option.bind_eq_bind, Option.bind_some, hs, Option.map_some]
  | list items =>
    simp only [encodeScalar, List.length_append, length_form, List.length_cons] at hx hb
    have hlen := length_le_encodeScalars items
    have hn := word_readsBack (by omega : items.length < UInt64.size)
      (encodeScalars items ++ rest)
    have hitems := decodeMany_encodeScalars items bound rest (by omega) (by omega)
    simp only [encodeScalar, List.append_assoc, decodeScalar, form_decode (by decide : 10 < 11),
      Option.bind_eq_bind, Option.bind_some, hn, hitems]

theorem decodeMany_encodeScalars (xs : List Scalar) (bound rest : Bytes)
    (hb : (encodeScalars xs).length ≤ bound.length) (hx : (encodeScalars xs).length < UInt64.size) :
    decodeMany (decodeScalar bound) xs.length (encodeScalars xs ++ rest) = some (xs, rest) := by
  cases xs with
  | nil => rfl
  | cons x more =>
    simp only [encodeScalars, List.length_append] at hb hx
    have hfirst := decodeScalar_encodeScalar x bound (encodeScalars more ++ rest) (by omega)
      (by omega)
    have hmore := decodeMany_encodeScalars more bound rest (by omega) (by omega)
    simp only [encodeScalars, List.append_assoc, List.length_cons, decodeMany, hfirst, hmore,
      Option.bind_eq_bind, Option.bind_some]

end

/-- **Values in few bytes are read back.** -/
theorem scalar_readsBack {x : Scalar} (h : (scalar.encode x).length < UInt64.size) :
    scalar.ReadsBack x := fun rest =>
  decodeScalar_encodeScalar x (encodeScalar x ++ rest) rest (by simp) h

theorem row_readsBack {row : Row} (h : (Coder.row.encode row).length < UInt64.size) :
    Coder.row.ReadsBack row :=
  list_readsBack_of_length length_encodeScalar_pos h fun _ _ hx => scalar_readsBack hx

end Coder

/-! ## Entries -/

namespace LogEntry

/-- An entry whose numbers have 64 bits. -/
def Wordy : LogEntry → Prop
  | .createTable .. | .dropTable _ | .insert .. => True
  | .delete _ rows => ∀ r ∈ rows, r < UInt64.size
  | .update _ column rows _ => column < UInt64.size ∧ ∀ r ∈ rows, r < UInt64.size
  | .checkpoint n | .commit n => n < UInt64.size

theorem words_readsBack {rows : List Nat} (hr : ∀ r ∈ rows, r < UInt64.size)
    (h : ((Coder.list Coder.word).encode rows).length < UInt64.size) :
    (Coder.list Coder.word).ReadsBack rows :=
  Coder.list_readsBack_of_length (fun _ => by simp [Coder.word, Coder.nat]) h fun r hm _ =>
    Coder.word_readsBack (hr r hm)

theorem decodeFields_encodeFields {e : LogEntry} (hw : e.Wordy)
    (h : e.encodeFields.length < UInt64.size) (rest : Bytes) :
    decodeFields (e.encodeFields ++ rest) e.kind = some (e, rest) := by
  cases e with
  | createTable name columns =>
    have hr : definitions.ReadsBack (name, columns) :=
      Coder.pair_readsBack_of_length h Coder.text_readsBack_of_length fun hc =>
        Coder.list_readsBack_of_length Coder.length_definition_pos hc fun d _ hd =>
          Coder.definition_readsBack hd
    simp only [decodeFields, kind, encodeFields, hr rest, Option.map_some]
  | dropTable name =>
    have hr : Coder.text.ReadsBack name := Coder.text_readsBack_of_length h
    simp only [decodeFields, kind, encodeFields, hr rest, Option.map_some]
  | insert table rows =>
    have hr : additions.ReadsBack (table, rows) :=
      Coder.pair_readsBack_of_length h Coder.text_readsBack_of_length fun hc =>
        Coder.list_readsBack_of_length (fun row => by
          simp only [Coder.row, Coder.list, List.length_append, Coder.word, Coder.nat,
            Bytes.length_ofNat]
          omega) hc fun row _ hd => Coder.row_readsBack hd
    simp only [decodeFields, kind, encodeFields, hr rest, Option.map_some]
  | delete table rows =>
    have hr : deletions.ReadsBack (table, rows) :=
      Coder.pair_readsBack_of_length h Coder.text_readsBack_of_length (words_readsBack hw)
    simp only [decodeFields, kind, encodeFields, hr rest, Option.map_some]
  | update table column rows values =>
    have hr : updates.ReadsBack (table, column, rows, values) :=
      Coder.pair_readsBack_of_length h Coder.text_readsBack_of_length fun hc =>
        Coder.pair_readsBack_of_length hc (fun _ => Coder.word_readsBack hw.1) fun hc =>
          Coder.pair_readsBack_of_length hc (words_readsBack hw.2) fun hc =>
            Coder.list_readsBack_of_length Coder.length_encodeScalar_pos hc fun x _ hx =>
              Coder.scalar_readsBack hx
    simp only [decodeFields, kind, encodeFields, hr rest, Option.map_some]
  | checkpoint n =>
    have hr : Coder.word.ReadsBack n := Coder.word_readsBack hw
    simp only [decodeFields, kind, encodeFields, hr rest, Option.map_some]
  | commit n =>
    have hr : Coder.word.ReadsBack n := Coder.word_readsBack hw
    simp only [decodeFields, kind, encodeFields, hr rest, Option.map_some]

/-- **Entries in few bytes are read back.** -/
theorem coder_readsBack {e : LogEntry} (hw : e.Wordy)
    (h : (coder.encode e).length < UInt64.size) : coder.ReadsBack e := by
  intro rest
  have hindex : e.kind.index < 11 := by cases e.kind <;> decide
  have hkind : LogKind.all[e.kind.index]? = some e.kind := by cases e.kind <;> rfl
  have hform := Coder.form_decode hindex (e.encodeFields ++ rest)
  simp only [coder, List.length_append] at h
  have hfields := decodeFields_encodeFields hw (by omega) rest
  simp only [coder, List.append_assoc, hform, Option.bind_eq_bind, Option.bind_some, hkind,
    hfields]

end LogEntry
end ColumnStore
