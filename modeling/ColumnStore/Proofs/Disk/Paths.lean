/-
# Paths of files that are made

A file that is made is found under the path that it was made with, whatever directories the path
leads through (`Disk.find_create`).
-/

import ColumnStore.Proofs.Disk.Names

namespace ColumnStore
namespace Disk

variable {d d' : Disk} {p q : Place} {name path : String}

/-- What was there is still there. -/
def Covers (d d' : Disk) : Prop := ∀ p, (d.entry? p).isSome → d'.entry? p = d.entry? p

theorem Covers.child (h : Covers d d') (hok : d.child p name = .ok q) : d'.child p name = .ok q := by
  rw [Disk.child] at hok ⊢
  cases hd : d.isDirectory p with
  | false =>
    rw [hd] at hok
    cases hok
  | true =>
    have hentry : d.entry? p = some .directory := by simpa [isDirectory] using hd
    have hd' : d'.isDirectory p = true := by
      simp only [isDirectory, h p (by rw [hentry]; rfl), hentry, decide_true]
    rw [hd] at hok
    rw [hd']
    exact hok

theorem Covers.step (h : Covers d d') (hok : d.step p name = .ok q) : d'.step p name = .ok q := by
  obtain ⟨r, hr, hok⟩ := bind_eq_ok.mp hok
  split at hok
  · rename_i hsome
    obtain rfl := Except.ok.inj hok
    rw [Disk.step, h.child hr, ok_bind, if_pos (by rw [h _ hsome]; exact hsome)]
    rfl
  · cases hok

/-- **A walk** leads where it led before. -/
theorem Covers.walk (h : Covers d d') {names : List String} (hok : names.foldlM d.step p = .ok q) :
    names.foldlM d'.step p = .ok q := by
  induction names generalizing p with
  | nil => exact hok
  | cons name rest ih =>
    rw [List.foldlM_cons] at hok ⊢
    obtain ⟨r, hr, hok⟩ := bind_eq_ok.mp hok
    rw [h.step hr, ok_bind]
    exact ih hok

/-- The names in front of the last one lead to the directory of a file to be made. -/
theorem placeFor_ok (hok : d.placeFor path = .ok p) : checkPath path = .ok () ∧
    ∃ front last r, names path = front ++ [last] ∧ front.foldlM d.step (origin path) = .ok r ∧
      d.child r last = .ok p := by
  obtain ⟨⟨⟩, hcheck, hok⟩ := bind_eq_ok.mp hok
  obtain ⟨r, hr, hok⟩ := bind_eq_ok.mp hok
  obtain ⟨p', hp, hok⟩ := bind_eq_ok.mp hok
  refine ⟨hcheck, ?_⟩
  split at hok
  · cases hok
  · rename_i hlength
    obtain rfl := Except.ok.inj hok
    have hsuffix : (names path).reverse.dropWhile (· = "") <:+ (names path).reverse :=
      List.dropWhile_suffix _
    have hall := hsuffix.eq_of_length_le (by rw [List.length_reverse]; exact Nat.le_of_not_lt hlength)
    rw [hall] at hr hp
    have hne : (names path).reverse ≠ [] := by simp [names]
    obtain ⟨last, front, hnames⟩ := List.exists_cons_of_ne_nil hne
    rw [hnames] at hr hp
    exact ⟨front.reverse, last, r, by rw [← List.reverse_cons, ← hnames, List.reverse_reverse], hr, hp⟩

/-- **A path leads to the place that a file was made at.** -/
theorem locate_of_placeFor (hok : d.placeFor path = .ok p) (h : Covers d d')
    (hp : (d'.entry? p).isSome) : d'.locate path = .ok p := by
  obtain ⟨hcheck, front, last, r, hnames, hwalk, hchild⟩ := placeFor_ok hok
  rw [locate, hcheck, ok_bind, hnames, List.foldlM_append, h.walk hwalk, ok_bind, List.foldlM_cons,
    step, h.child hchild, ok_bind, if_pos hp]
  rfl

/-- **A file that is made is found.**  It has no bytes, and is at the end of its path. -/
theorem find_create {file : FileId} (hd : d.Whole) (hok : d.create path = .ok (file, d')) :
    file < d'.contents.size ∧ d'.bytes file = [] ∧ d'.find path = .ok file := by
  obtain ⟨p, hp, hok⟩ := bind_eq_ok.mp hok
  have hfind : ∀ e : Disk, Covers d e → e.entry? p = some (.file file) →
      e.find path = .ok file := by
    intro e he hentry
    rw [find, locate_of_placeFor hp he (by rw [hentry]; rfl), ok_bind, hentry]
    rfl
  cases hentry : d.entry? p with
  | none =>
    -- Nothing was at the place, so no walk went through it.
    rw [hentry] at hok
    obtain ⟨rfl, rfl⟩ := Prod.mk.inj (Except.ok.inj hok)
    have hinner : Inner p := fun h => by
      rw [Disk.entry?, if_pos h] at hentry
      cases hentry
    have hsize : (d.withFile p).contents.size = d.contents.size + 1 := Array.size_push ..
    refine ⟨hsize ▸ Nat.lt_succ_self _, ?_, hfind (d.withFile p) (fun q hq => ?_) ?_⟩
    · rw [bytes, Array.getD_eq_getD_getElem?]
      exact congrArg (Option.getD · []) (Array.getElem?_push_size ..)
    · rw [entry?_withFile hinner, if_neg]
      rintro rfl
      rw [hentry] at hq
      cases hq
    · rw [entry?_withFile hinner, if_pos rfl]
  | some e =>
    rw [hentry] at hok
    cases e with
    | directory => cases hok
    | file f =>
      obtain ⟨rfl, rfl⟩ := Prod.mk.inj (Except.ok.inj hok)
      have hsame := SameBut.write f d []
      have hcovers : Covers d (d.write f []) := fun q _ =>
        sameExcept_of_entries hsame.entries_eq [] q List.not_mem_nil
      exact ⟨hsame.size_eq ▸ hd p f hentry, bytes_write (hd p f hentry) [],
        hfind _ hcovers ((hcovers p (by rw [hentry]; rfl)).trans hentry)⟩

end Disk
end ColumnStore
