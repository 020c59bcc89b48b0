/-
# Names in the data directory

A path that is a plain name leads to the entry of that name in the data directory.  A file that is
made, deleted or moved there changes what is at the names that are given, and nothing else.
-/

import ColumnStore.Proofs.Disk.Changes

namespace ColumnStore
namespace Disk

/-- The name of a file: no `/` in it, not one of the names that stay or go up, and not too long. -/
structure Plain (name : String) : Prop where
  no_slash : '/' ∉ name.toList
  no_nul : '\x00' ∉ name.toList
  named : name ≠ "" ∧ name ≠ "." ∧ name ≠ ".."
  short : name.utf8ByteSize ≤ longestName

instance (name : String) : Decidable (Plain name) :=
  decidable_of_iff ('/' ∉ name.toList ∧ '\x00' ∉ name.toList ∧
      (name ≠ "" ∧ name ≠ "." ∧ name ≠ "..") ∧ name.utf8ByteSize ≤ longestName)
    ⟨fun ⟨a, b, c, d⟩ => ⟨a, b, c, d⟩, fun ⟨a, b, c, d⟩ => ⟨a, b, c, d⟩⟩

variable {d d' : Disk} {name : String}

theorem foldr_addToNames {cs : List Char} (h : '/' ∉ cs) :
    cs.foldr addToNames ([], []) = (cs, []) := by
  induction cs with
  | nil => rfl
  | cons c cs ih =>
    obtain ⟨hc, hcs⟩ := not_or.mp (mt List.mem_cons.mpr h)
    rw [List.foldr_cons, ih hcs, addToNames, if_neg (Ne.symm hc)]

theorem names_eq_singleton (h : '/' ∉ name.toList) : names name = [name] := by
  rw [names, foldr_addToNames h]
  simp

/-- A name of a file that is deleted is not too long. -/
theorem short_of_delete (hs : '/' ∉ name.toList) (hn : name ≠ "" ∧ name ≠ "." ∧ name ≠ "..")
    (hok : d.delete name = .ok d') : name.utf8ByteSize ≤ longestName := by
  obtain ⟨p, hp, -⟩ := bind_eq_ok.mp hok
  obtain ⟨-, -, hp⟩ := bind_eq_ok.mp hp
  rw [names_eq_singleton hs, List.foldlM_cons] at hp
  obtain ⟨q, hq, -⟩ := bind_eq_ok.mp hp
  obtain ⟨r, hr, -⟩ := bind_eq_ok.mp hq
  rw [child] at hr
  split at hr
  · cases hr
  · rw [if_neg fun h => h.elim hn.1 hn.2.1, if_neg hn.2.2] at hr
    split at hr
    · cases hr
    · rename_i hlen
      exact Nat.le_of_not_lt hlen

namespace Plain

theorem names_eq (h : Plain name) : names name = [name] := names_eq_singleton h.no_slash

theorem checkPath_eq (h : Plain name) : checkPath name = .ok () := by
  rw [checkPath, if_neg h.no_nul, if_neg]
  exact Nat.not_lt_of_le (Nat.le_trans h.short (by decide))

theorem origin_eq (h : Plain name) : origin name = [] := by
  rw [origin, if_neg]
  rw [String.startsWith_string_iff]
  rintro ⟨rest, hrest⟩
  exact h.no_slash (hrest ▸ List.mem_append_left _ (by decide))

theorem locate_eq (h : Plain name) (d : Disk) : d.locate name =
    if (d.entry? [name]).isSome then .ok [name] else .error .notFound := by
  rw [locate, h.checkPath_eq, ok_bind, h.names_eq, h.origin_eq]
  change (d.step [] name >>= fun p => pure p) = _
  rw [step_eq d [] h.named h.short, if_pos d.isDirectory_root, List.nil_append]
  split <;> rfl

theorem contains_eq (h : Plain name) (d : Disk) : d.contains name = (d.entry? [name]).isSome := by
  rw [contains, h.locate_eq]
  cases (d.entry? [name]).isSome <;> rfl

theorem find_eq_ok (h : Plain name) {file : FileId} :
    d.find name = .ok file ↔ d.entry? [name] = some (.file file) := by
  rw [find, h.locate_eq]
  cases he : d.entry? [name] with
  | none => simp
  | some e => cases e <;> simp [he, pure, throw, throwThe, MonadExceptOf.throw, Except.pure]

theorem placeFor_eq (h : Plain name) (d : Disk) : d.placeFor name = .ok [name] := by
  have hbody : [name].reverse.dropWhile (· = "") = [name] := by
    rw [List.reverse_singleton, List.dropWhile_cons_of_neg (by simpa using h.named.1)]
  rw [placeFor, h.checkPath_eq, ok_bind, h.names_eq, h.origin_eq]
  simp only [hbody]
  change (d.child [] name >>= fun p => pure p) = _
  rw [child, d.isDirectory_root, if_neg (by decide),
    if_neg fun hn => hn.elim h.named.1 h.named.2.1, if_neg h.named.2.2,
    if_neg (Nat.not_lt_of_le h.short)]
  rfl

end Plain

/-! ## What is at a place -/

/-- What is at other places than the given ones stays. -/
def SameExcept (ps : List Place) (d d' : Disk) : Prop := ∀ p, p ∉ ps → d'.entry? p = d.entry? p

theorem SameExcept.refl (ps : List Place) (d : Disk) : SameExcept ps d d := fun _ _ => rfl

theorem SameExcept.trans {ps : List Place} {d₁ d₂ : Disk} (h : SameExcept ps d d₁)
    (h' : SameExcept ps d₁ d₂) : SameExcept ps d d₂ := fun p hp => (h' p hp).trans (h p hp)

theorem SameExcept.mono {ps qs : List Place} (h : SameExcept ps d d') (hs : ∀ p ∈ ps, p ∈ qs) :
    SameExcept qs d d' := fun p hp => h p fun hm => hp (hs p hm)

/-- Only what is in files changes. -/
theorem sameExcept_of_entries (h : d'.entries = d.entries) (ps : List Place) :
    SameExcept ps d d' := fun p _ => by rw [Disk.entry?, Disk.entry?, h]

/-- A place that is not one of the directories that are always there. -/
def Inner (p : Place) : Prop := ¬(p = [] ∨ p = outside)

theorem Plain.inner (h : Plain name) : Inner [name] := by
  rintro (hn | hn)
  · cases hn
  · exact h.named.2.2 (List.singleton_inj.mp hn)

theorem lookup_filter_ne {β : Type} (entries : List (Place × β)) (p q : Place) :
    (entries.filter (·.1 ≠ p)).lookup q = if q = p then none else entries.lookup q := by
  induction entries with
  | nil => split <;> rfl
  | cons e rest ih =>
    obtain ⟨r, x⟩ := e
    by_cases hr : r = p
    · rw [List.filter_cons_of_neg (by simpa using hr), ih, hr]
      split
      · rfl
      · rename_i hq
        rw [List.lookup_cons, beq_eq_false_iff_ne.mpr hq]
    · rw [List.filter_cons_of_pos (by simpa using hr), List.lookup_cons, List.lookup_cons, ih]
      by_cases hq : q = r
      · subst hq
        simp [hr]
      · rw [beq_eq_false_iff_ne.mpr hq]

theorem entry?_setEntry {p : Place} (hp : Inner p) (d : Disk) (e : DiskEntry) (q : Place) :
    Disk.entry? (d.setEntry p e) q = if q = p then some e else d.entry? q := by
  rw [Disk.entry?, Disk.entry?, setEntry]
  by_cases hq : q = p
  · subst hq
    rw [if_neg hp, if_pos rfl, List.lookup_cons, beq_self_eq_true]
  · rw [if_neg hq]
    split
    · rfl
    · rw [List.lookup_cons, beq_eq_false_iff_ne.mpr hq, lookup_filter_ne, if_neg hq]

theorem sameExcept_setEntry {p : Place} (hp : Inner p) (d : Disk) (e : DiskEntry) :
    SameExcept [p] d (d.setEntry p e) := fun q hq => by
  rw [entry?_setEntry hp, if_neg (by simpa using hq)]

/-- A disk without what is at a place. -/
def without (d : Disk) (p : Place) : Disk := { d with entries := d.entries.filter (·.1 ≠ p) }

theorem entry?_without {p : Place} (hp : Inner p) (d : Disk) (q : Place) :
    Disk.entry? (d.without p) q = if q = p then none else d.entry? q := by
  rw [Disk.entry?, Disk.entry?, without]
  by_cases hq : q = p
  · subst hq
    rw [if_neg hp, if_pos rfl, lookup_filter_ne, if_pos rfl]
  · rw [if_neg hq]
    split
    · rfl
    · rw [lookup_filter_ne, if_neg hq]

theorem sameExcept_without {p : Place} (hp : Inner p) (d : Disk) :
    SameExcept [p] d (d.without p) := fun q hq => by
  rw [entry?_without hp, if_neg (by simpa using hq)]

/-- The disk with a new file that has no bytes. -/
def withFile (d : Disk) (p : Place) : Disk :=
  { d with contents := d.contents.push [] }.setEntry p (.file d.contents.size)

theorem entry?_withFile {p : Place} (hp : Inner p) (d : Disk) (q : Place) :
    Disk.entry? (d.withFile p) q = if q = p then some (.file d.contents.size) else d.entry? q :=
  entry?_setEntry hp _ _ _

namespace Plain

/-- **A file is made** where there is none. -/
theorem create_new (h : Plain name) (hn : d.entry? [name] = none) :
    d.create name = .ok (d.contents.size, d.withFile [name]) := by
  rw [create, h.placeFor_eq, ok_bind]
  simp only [hn]
  rfl

/-- A file that is there is emptied. -/
theorem create_again (h : Plain name) {file : FileId} (hf : d.entry? [name] = some (.file file)) :
    d.create name = .ok (file, d.write file []) := by
  rw [create, h.placeFor_eq, ok_bind]
  simp only [hf]
  rfl

/-- **A file that is deleted** had the name that is taken away. -/
theorem delete_ok (h : Plain name) (hok : d.delete name = .ok d') :
    d.isDirectory [name] = false ∧ d' = d.without [name] := by
  obtain ⟨p, hp, hok⟩ := bind_eq_ok.mp hok
  rw [h.locate_eq] at hp
  split at hp
  · obtain rfl := Except.ok.inj hp
    split at hok
    · cases hok
    · rename_i hd
      exact ⟨by simpa using hd, (Except.ok.inj hok).symm⟩
  · cases hp

theorem delete_eq (h : Plain name) {file : FileId} (hf : d.entry? [name] = some (.file file)) :
    d.delete name = .ok (d.without [name]) := by
  rw [delete, h.locate_eq, hf, Option.isSome_some, if_pos rfl, ok_bind, if_neg]
  · rfl
  · rw [isDirectory, hf]
    simp

/-- **A file that is moved** takes the place of what was there. -/
theorem rename_eq (h : Plain name) {new : String} (hnew : Plain new) {file : FileId}
    (hf : d.entry? [name] = some (.file file)) (hd : d.isDirectory [new] = false) :
    d.rename name new = .ok ((d.without [name]).setEntry [new] (.file file)) := by
  rw [rename, h.find_eq_ok.mpr hf, ok_bind, hnew.placeFor_eq, ok_bind, if_neg (by rw [hd]; decide),
    h.delete_eq hf]
  rfl

end Plain

/-! ## Files that were there -/

/-- Every name of a file is that of one that is there. -/
def Whole (d : Disk) : Prop := ∀ p file, d.entry? p = some (.file file) → file < d.contents.size

theorem Whole.withFile {p : Place} (h : d.Whole) (hp : Inner p) : (d.withFile p).Whole := by
  intro q file hq
  have hsize : (d.withFile p).contents.size = d.contents.size + 1 := Array.size_push ..
  rw [entry?_withFile hp] at hq
  rw [hsize]
  split at hq
  · cases hq
    exact Nat.lt_succ_self _
  · exact Nat.lt_succ_of_lt (h q file hq)

theorem Whole.setEntry {p : Place} (h : d.Whole) (hp : Inner p) {file : FileId}
    (hf : file < d.contents.size) : (d.setEntry p (.file file)).Whole := by
  intro q f hq
  rw [entry?_setEntry hp] at hq
  split at hq
  · cases hq
    exact hf
  · exact h q f hq

theorem Whole.without {p : Place} (h : d.Whole) (hp : Inner p) : (d.without p).Whole := by
  intro q f hq
  rw [entry?_without hp] at hq
  split at hq
  · cases hq
  · exact h q f hq

theorem Whole.sameBut {file : FileId} (h : d.Whole) (hd : SameBut file d d') : d'.Whole := by
  intro q f hq
  rw [sameExcept_of_entries hd.entries_eq [] q List.not_mem_nil] at hq
  rw [hd.size_eq]
  exact h q f hq

/-- Files are added, and those that were there keep their bytes, but for one. -/
structure Grows (file : FileId) (d d' : Disk) : Prop where
  size_le : d.contents.size ≤ d'.contents.size
  bytes_eq : ∀ f, f < d.contents.size → f ≠ file → d'.bytes f = d.bytes f

namespace Grows

variable {file : FileId} {d₁ d₂ : Disk}

theorem refl (file : FileId) (d : Disk) : Grows file d d := ⟨Nat.le_refl _, fun _ _ _ => rfl⟩

theorem trans (h : Grows file d d₁) (h' : Grows file d₁ d₂) : Grows file d d₂ where
  size_le := Nat.le_trans h.size_le h'.size_le
  bytes_eq f hf hne := (h'.bytes_eq f (Nat.lt_of_lt_of_le hf h.size_le) hne).trans
    (h.bytes_eq f hf hne)

theorem of_contents (h : d'.contents = d.contents) (file : FileId) : Grows file d d' where
  size_le := Nat.le_of_eq (by rw [h])
  bytes_eq f _ _ := by rw [bytes, bytes, h]

theorem sameBut (h : SameBut file d d') : Grows file d d' :=
  ⟨Nat.le_of_eq h.size_eq.symm, fun f _ hne => h.bytes_eq f hne⟩

theorem withFile (file : FileId) (d : Disk) (p : Place) : Grows file d (d.withFile p) where
  size_le := Nat.le_of_lt (Nat.lt_of_lt_of_eq (Nat.lt_succ_self _) (Array.size_push ..).symm)
  bytes_eq f hf _ := by
    rw [bytes, bytes, Array.getD_eq_getD_getElem?, Array.getD_eq_getD_getElem?]
    exact congrArg (Option.getD · [])
      ((Array.getElem?_push_lt hf).trans (Array.getElem?_eq_getElem hf).symm)

end Grows

/-- Files that were there get no further names. -/
def KeepsNames (d d' : Disk) : Prop := ∀ p file, d'.entry? p = some (.file file) →
  d.entry? p = some (.file file) ∨ d.contents.size ≤ file

namespace KeepsNames

variable {d₁ : Disk}

theorem refl (d : Disk) : KeepsNames d d := fun _ _ h => Or.inl h

theorem trans (h : KeepsNames d d₁) (hsize : d.contents.size ≤ d₁.contents.size)
    (h' : KeepsNames d₁ d') : KeepsNames d d' := by
  intro p file hp
  rcases h' p file hp with hp | hle
  · exact h p file hp
  · exact Or.inr (Nat.le_trans hsize hle)

theorem of_entries (h : d'.entries = d.entries) : KeepsNames d d' := by
  intro p file hp
  rw [sameExcept_of_entries h [] p List.not_mem_nil] at hp
  exact Or.inl hp

theorem without {p : Place} (hp : Inner p) (d : Disk) : KeepsNames d (d.without p) := by
  intro q file hq
  rw [entry?_without hp] at hq
  split at hq
  · cases hq
  · exact Or.inl hq

theorem withFile {p : Place} (hp : Inner p) (d : Disk) : KeepsNames d (d.withFile p) := by
  intro q file hq
  rw [entry?_withFile hp] at hq
  split at hq
  · cases hq
    exact Or.inr (Nat.le_refl _)
  · exact Or.inl hq

end KeepsNames

/-! ## The log among other files -/

/-- **The log is found where its directory and its file are.** -/
theorem find_log_iff {file : FileId} : d.find (Log.path Database.logDirectory) = .ok file ↔
    d.entry? ["wal"] = some .directory ∧ d.entry? ["wal", "strata.wal"] = some (.file file) := by
  refine ⟨log_entries, fun ⟨hdir, hfile⟩ => ?_⟩
  have hstep : d.step ["wal"] "strata.wal" = .ok ["wal", "strata.wal"] := by
    rw [step_eq d _ (by decide) (by decide), if_pos (by rw [isDirectory, hdir]; rfl)]
    change (if (d.entry? ["wal", "strata.wal"]).isSome then _ else _) = _
    rw [hfile]
    rfl
  have hwalk : ["wal", "strata.wal"].foldlM d.step [] = .ok ["wal", "strata.wal"] := by
    rw [List.foldlM_cons, step_wal, hdir, Option.isSome_some, if_pos rfl, ok_bind, List.foldlM_cons,
      hstep]
    rfl
  rw [find, locate, checkPath_log, ok_bind, names_log, origin_log, hwalk, ok_bind, hfile]
  rfl

theorem SameExcept.find_log {ps : List Place} (h : SameExcept ps d d') (hw : ["wal"] ∉ ps)
    (hs : ["wal", "strata.wal"] ∉ ps) {file : FileId}
    (hf : d.find (Log.path Database.logDirectory) = .ok file) :
    d'.find (Log.path Database.logDirectory) = .ok file := by
  obtain ⟨hdir, hfile⟩ := find_log_iff.mp hf
  exact find_log_iff.mpr ⟨(h _ hw).trans hdir, (h _ hs).trans hfile⟩

end Disk
end ColumnStore
