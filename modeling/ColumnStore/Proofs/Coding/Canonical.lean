/-
# One reading for each byte string

A coder is canonical when it reads from bytes only what it would write as these bytes.  The coders of
the log are canonical, part by part: a number has a fixed width and no other form, a flag is one of
two bytes, a text is the one with these bytes, and what is nested follows behind its number of items.

`LogEntry.coder_unambiguous`: an entry is read back from its bytes with anything behind them, bytes
from which an entry is read start with the bytes of the entry, and so no entry starts with the bytes
of another one.
-/

import ColumnStore.Proofs.Coding.ReadsBack

namespace ColumnStore

/-- **A text has the bytes that it was read from.** -/
theorem Utf8.ofString_of_decode {b : Bytes} {s : String} (h : Utf8.decode b = .ok s) :
    Bytes.ofString s = b := by
  rw [Utf8.decode, String.fromUTF8?] at h
  split at h
  · rename_i t ht
    obtain rfl := Except.ok.inj h
    split at ht
    · obtain rfl := Option.some.inj ht
      exact List.toList_toArray
    · cases ht
  · cases h

/-- **A number of fixed width has the bytes that it was read from.** -/
theorem Scalar.fixed_ofFixed {t : ColumnType} {w : Nat} (ht : t.storage.width? = some w)
    (hflag : t ≠ .boolean) {b : Bytes} (hb : b.length = w) : (Scalar.ofFixed t b).fixed = b := by
  have hlt := Bytes.toNat_lt b
  have hback := Bytes.ofNat_toNat b
  rw [hb] at hlt hback
  cases t <;> first
    | exact absurd rfl hflag
    | cases ht; done
    | (obtain rfl := Option.some.inj ht
       exact (congrArg (Bytes.ofNat _) (Nat.mod_eq_of_lt hlt)).trans hback)

namespace Coder

variable {α β : Type}

theorem nat_canonical (width : Nat) : (nat width).Canonical := by
  intro b n rest h
  obtain ⟨⟨head, tail⟩, hs, heq⟩ := Option.map_eq_some_iff.mp h
  obtain ⟨rfl, rfl⟩ := Prod.mk.inj heq
  obtain ⟨rfl, rfl⟩ := Bytes.split?_eq_some.mp hs
  exact congrArg (· ++ tail) (Bytes.ofNat_toNat head).symm

theorem bool_canonical : bool.Canonical := by
  intro b v rest h
  rcases b with _ | ⟨x, b⟩
  · cases h
  simp only [bool] at h
  split at h
  · rename_i heq
    obtain ⟨rfl, rfl⟩ := List.cons.inj heq
    obtain ⟨rfl, rfl⟩ := Prod.mk.inj (Option.some.inj h)
    rfl
  · rename_i heq
    obtain ⟨rfl, rfl⟩ := List.cons.inj heq
    obtain ⟨rfl, rfl⟩ := Prod.mk.inj (Option.some.inj h)
    rfl
  · cases h

/-- **A pair is canonical when its parts are.** -/
theorem pair_canonical {c : Coder α} {d : Coder β} (hc : c.Canonical) (hd : d.Canonical) :
    (pair c d).Canonical := by
  rintro b ⟨x, y⟩ rest h
  obtain ⟨⟨x', b₁⟩, hx, h⟩ := Option.bind_eq_some_iff.mp h
  obtain ⟨⟨y', b₂⟩, hy, h⟩ := Option.bind_eq_some_iff.mp h
  obtain ⟨heq, rfl⟩ := Prod.mk.inj (Option.some.inj h)
  obtain ⟨rfl, rfl⟩ := Prod.mk.inj heq
  rw [hc _ _ _ hx, hd _ _ _ hy, pair, List.append_assoc]

theorem map_canonical {c : Coder α} (hc : c.Canonical) {pack : α → β} {unpack : β → α}
    (hu : ∀ a, unpack (pack a) = a) : (map c pack unpack).Canonical := by
  intro b v rest h
  obtain ⟨⟨a, b₁⟩, ha, heq⟩ := Option.map_eq_some_iff.mp h
  obtain ⟨rfl, rfl⟩ := Prod.mk.inj heq
  have hwrite : (map c pack unpack).encode (pack a) = c.encode a := congrArg c.encode (hu a)
  rw [hwrite]
  exact hc _ _ _ ha

theorem text_canonical : text.Canonical := by
  intro b s rest h
  obtain ⟨⟨n, b₁⟩, hn, h⟩ := Option.bind_eq_some_iff.mp h
  obtain ⟨⟨head, b₂⟩, hs, h⟩ := Option.bind_eq_some_iff.mp h
  dsimp only at h
  split at h
  · rename_i t ht
    obtain ⟨rfl, rfl⟩ := Prod.mk.inj (Option.some.inj h)
    obtain ⟨rfl, rfl⟩ := Bytes.split?_eq_some.mp hs
    have hwrite : text.encode t = word.encode head.length ++ head := by
      rw [← Utf8.ofString_of_decode ht]
      rfl
    rw [nat_canonical 8 _ _ _ hn, hwrite, List.append_assoc]
    rfl
  · cases h

/-- **Values behind each other** are read from what they would be written as, when one is. -/
theorem decodeMany_canonical {read : Bytes → Option (α × Bytes)} {write : α → Bytes}
    (hone : ∀ b v rest, read b = some (v, rest) → b = write v ++ rest) {count : Nat} {b : Bytes}
    {vs : List α} {rest : Bytes} (h : decodeMany read count b = some (vs, rest)) :
    vs.length = count ∧ b = vs.flatMap write ++ rest := by
  induction count generalizing b vs with
  | zero =>
    obtain ⟨rfl, rfl⟩ := Prod.mk.inj (Option.some.inj h)
    exact ⟨rfl, rfl⟩
  | succ count ih =>
    obtain ⟨⟨v, b₁⟩, hv, h⟩ := Option.bind_eq_some_iff.mp h
    obtain ⟨⟨more, b₂⟩, hmore, h⟩ := Option.bind_eq_some_iff.mp h
    obtain ⟨rfl, rfl⟩ := Prod.mk.inj (Option.some.inj h)
    obtain ⟨hlen, hb₁⟩ := ih hmore
    refine ⟨congrArg (· + 1) hlen, ?_⟩
    rw [hone _ _ _ hv, List.flatMap_cons, List.append_assoc, ← hb₁]

theorem list_canonical {c : Coder α} (hc : c.Canonical) : (list c).Canonical := by
  intro b vs rest h
  obtain ⟨⟨n, b₁⟩, hn, h⟩ := Option.bind_eq_some_iff.mp h
  obtain ⟨rfl, hb₁⟩ := decodeMany_canonical hc h
  rw [nat_canonical 8 _ _ _ hn, list, List.append_assoc, ← hb₁]
  rfl

/-! ## Types -/

/-- A type that is not nested is written as its number. -/
theorem encodeType_plainType? {n : Nat} {t : ColumnType} (h : plainType? n = some t) :
    encodeType t = form.encode n := by
  have hall : ∀ n < 9, (plainType? n).map encodeType = some (form.encode n) := by decide
  have hone := hall n (List.getElem?_eq_some_iff.mp h).1
  rw [h] at hone
  exact Option.some.inj hone

theorem decodeType_canonical {bound b rest : Bytes} {t : ColumnType}
    (h : decodeType bound b = some (t, rest)) : b = encodeType t ++ rest := by
  induction bound generalizing b t with
  | nil => cases h
  | cons _ bound ih =>
    obtain ⟨⟨n, b₁⟩, hn, h⟩ := Option.bind_eq_some_iff.mp h
    rw [nat_canonical 4 _ _ _ hn]
    dsimp only at h
    split at h
    · rename_i hlist
      obtain ⟨⟨item, b₂⟩, hitem, h⟩ := Option.bind_eq_some_iff.mp h
      obtain ⟨rfl, rfl⟩ := Prod.mk.inj (Option.some.inj h)
      rw [hlist, ih hitem, encodeType, List.append_assoc]
      rfl
    · obtain ⟨u, hu, h⟩ := Option.bind_eq_some_iff.mp h
      obtain ⟨rfl, rfl⟩ := Prod.mk.inj (Option.some.inj h)
      rw [encodeType_plainType? hu]
      rfl

theorem type_canonical : type.Canonical := fun _ _ _ h => decodeType_canonical h

theorem definition_canonical : definition.Canonical :=
  map_canonical (pair_canonical text_canonical type_canonical) fun _ => rfl

/-! ## Values -/

theorem encodeScalars_eq (xs : List Scalar) : encodeScalars xs = xs.flatMap encodeScalar := by
  induction xs with
  | nil => rfl
  | cons x more ih => rw [encodeScalars, ih, List.flatMap_cons]

/-- A value of fixed width is a value of its type, with the bytes that it was read from. -/
theorem decodeFixed_canonical {t : ColumnType} {w : Nat} (ht : t.storage.width? = some w)
    (hflag : t ≠ .boolean) {b rest : Bytes} {x : Scalar} (h : decodeFixed t b = some (x, rest)) :
    ∃ head, x = Scalar.ofFixed t head ∧ b = x.fixed ++ rest := by
  rw [decodeFixed, ht] at h
  obtain ⟨⟨head, tail⟩, hs, heq⟩ := Option.map_eq_some_iff.mp h
  obtain ⟨rfl, rfl⟩ := Prod.mk.inj heq
  obtain ⟨rfl, hlen⟩ := Bytes.split?_eq_some.mp hs
  exact ⟨head, rfl, by rw [Scalar.fixed_ofFixed ht hflag hlen]⟩

/-- **A value is read from what it would be written as,** by induction on the depth to which it may be
nested. -/
theorem decodeScalar_canonical {bound b rest : Bytes} {x : Scalar}
    (h : decodeScalar bound b = some (x, rest)) : b = encodeScalar x ++ rest := by
  induction bound generalizing b rest x with
  | nil => cases h
  | cons _ bound ih =>
    obtain ⟨⟨n, b₁⟩, hn, h⟩ := Option.bind_eq_some_iff.mp h
    rw [nat_canonical 4 _ _ _ hn]
    dsimp only at h
    split at h
    case h_1 =>
      obtain ⟨rfl, rfl⟩ := Prod.mk.inj (Option.some.inj h)
      rfl
    case h_2 =>
      obtain ⟨⟨v, b₂⟩, hv, heq⟩ := Option.map_eq_some_iff.mp h
      obtain ⟨rfl, rfl⟩ := Prod.mk.inj heq
      rw [bool_canonical _ _ _ hv, encodeScalar, List.append_assoc]
      rfl
    case h_10 =>
      obtain ⟨⟨s, b₂⟩, hs, heq⟩ := Option.map_eq_some_iff.mp h
      obtain ⟨rfl, rfl⟩ := Prod.mk.inj heq
      rw [text_canonical _ _ _ hs, encodeScalar, List.append_assoc]
      rfl
    case h_11 =>
      obtain ⟨⟨count, b₂⟩, hcount, h⟩ := Option.bind_eq_some_iff.mp h
      obtain ⟨⟨items, b₃⟩, hitems, h⟩ := Option.bind_eq_some_iff.mp h
      obtain ⟨rfl, rfl⟩ := Prod.mk.inj (Option.some.inj h)
      obtain ⟨rfl, hb₂⟩ := decodeMany_canonical (fun _ _ _ => ih) hitems
      rw [nat_canonical 8 _ _ _ hcount, encodeScalar, encodeScalars_eq, List.append_assoc,
        List.append_assoc, ← hb₂]
      rfl
    case h_12 => cases h
    -- the numbers of fixed width
    all_goals
      obtain ⟨head, rfl, hb⟩ := decodeFixed_canonical rfl (by decide) h
      rw [hb]
      rfl

theorem scalar_canonical : scalar.Canonical := fun _ _ _ h => decodeScalar_canonical h

end Coder

/-! ## Entries -/

namespace LogEntry

theorem decodeFields_canonical {b rest : Bytes} {k : LogKind} {e : LogEntry}
    (h : decodeFields b k = some (e, rest)) : e.kind = k ∧ b = e.encodeFields ++ rest := by
  cases k <;> obtain ⟨⟨fields, b₁⟩, hf, heq⟩ := Option.map_eq_some_iff.mp h <;>
    obtain ⟨rfl, rfl⟩ := Prod.mk.inj heq <;> refine ⟨rfl, ?_⟩
  case createTable =>
    exact Coder.pair_canonical Coder.text_canonical
      (Coder.list_canonical Coder.definition_canonical) _ _ _ hf
  case dropTable => exact Coder.text_canonical _ _ _ hf
  case insert =>
    exact Coder.pair_canonical Coder.text_canonical
      (Coder.list_canonical (Coder.list_canonical Coder.scalar_canonical)) _ _ _ hf
  case delete =>
    exact Coder.pair_canonical Coder.text_canonical
      (Coder.list_canonical (Coder.nat_canonical 8)) _ _ _ hf
  case update =>
    exact Coder.pair_canonical Coder.text_canonical (Coder.pair_canonical (Coder.nat_canonical 8)
      (Coder.pair_canonical (Coder.list_canonical (Coder.nat_canonical 8))
        (Coder.list_canonical Coder.scalar_canonical))) _ _ _ hf
  case checkpoint => exact Coder.nat_canonical 8 _ _ _ hf
  case commit => exact Coder.nat_canonical 8 _ _ _ hf

/-- **An entry is read from what it would be written as.** -/
theorem coder_canonical : coder.Canonical := by
  intro b e rest h
  obtain ⟨⟨n, b₁⟩, hn, h⟩ := Option.bind_eq_some_iff.mp h
  obtain ⟨k, hk, h⟩ := Option.bind_eq_some_iff.mp h
  obtain ⟨rfl, hb₁⟩ := decodeFields_canonical h
  have hindex : e.kind.index = n := by
    have hall : ∀ n < 7, LogKind.all[n]?.map LogKind.index = some n := by decide
    have hone := hall n (List.getElem?_eq_some_iff.mp hk).1
    rw [hk] at hone
    exact Option.some.inj hone
  have hwrite : coder.encode e = Coder.form.encode n ++ e.encodeFields :=
    congrArg (Coder.form.encode · ++ e.encodeFields) hindex
  rw [Coder.nat_canonical 4 _ _ _ hn, hwrite, List.append_assoc, ← hb₁]
  rfl

/-- **The bytes of an entry have one reading.**  An entry that can be held, with numbers of 64 bits
and fewer than `2 ^ 64` bytes, is read back from its bytes with the bits of all its numbers, whatever
follows.  Any bytes from which an entry is read start with the bytes of that entry.  So two entries
with anything behind them are the same bytes only if they are the same entry and the same rest. -/
theorem coder_unambiguous :
    (∀ e : LogEntry, e.Wordy → (coder.encode e).length < UInt64.size →
      ∀ rest, coder.decode (coder.encode e ++ rest) = some (e, rest)) ∧
    (∀ b e rest, coder.decode b = some (e, rest) → b = coder.encode e ++ rest) ∧
    (∀ e e' : LogEntry, e.Wordy → e'.Wordy → (coder.encode e).length < UInt64.size →
      (coder.encode e').length < UInt64.size → ∀ rest rest',
        coder.encode e ++ rest = coder.encode e' ++ rest' → e = e' ∧ rest = rest') := by
  refine ⟨fun e hw h => coder_readsBack hw h, coder_canonical, ?_⟩
  intro e e' hw hw' h h' rest rest' heq
  have hread := coder_readsBack hw h rest
  rw [heq, coder_readsBack hw' h' rest'] at hread
  obtain ⟨rfl, rfl⟩ := Prod.mk.inj (Option.some.inj hread)
  exact ⟨rfl, rfl⟩

/-- A row with a nested list, a `NULL` in it, a NaN with a payload and a text of two bytes. -/
def nestedRow : LogEntry :=
  .insert "t" [[.list [.list [.double 0x7FF8000000000001, .null], .list []], .varchar "é"]]

/-- A table with a column of nested lists. -/
def nestedTable : LogEntry := .createTable "t" [⟨"v", .list (.list .double)⟩]

/-- A row with nested values is read back with more bytes behind it, a commit in front of a byte is
read from its own bytes, and no row with nested values starts as a table of nested lists does. -/
theorem coder_unambiguous_nested :
    coder.decode (coder.encode nestedRow ++ [10, 0]) = some (nestedRow, [10, 0]) ∧
      [6, 0, 0, 0, 2, 0, 0, 0, 0, 0, 0, 0, 9] = coder.encode (.commit 2) ++ [9] ∧
      ∀ rest rest', coder.encode nestedRow ++ rest ≠ coder.encode nestedTable ++ rest' := by
  have hrow : (coder.encode nestedRow).length < UInt64.size := by decide +kernel
  have htable : (coder.encode nestedTable).length < UInt64.size := by decide +kernel
  refine ⟨coder_unambiguous.1 nestedRow trivial hrow [10, 0],
    coder_unambiguous.2.1 _ _ _ (by rfl), fun rest rest' heq => ?_⟩
  have hsame := (coder_unambiguous.2.2 nestedRow nestedTable trivial trivial hrow htable
    rest rest' heq).1
  cases hsame

end LogEntry
end ColumnStore
