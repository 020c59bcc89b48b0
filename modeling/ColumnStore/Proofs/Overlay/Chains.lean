/-
# Chains of an overlay

The chains of an overlay are a list in ascending order of the rows.  As long as it is, changing the
chain of one row leaves those of all others alone: `chainIn_alter` says so for every change at once,
and each operation of an overlay is read off it.
-/

import ColumnStore.Segment.Overlay
import Mathlib.Data.List.Basic
import Mathlib.Tactic.Common

namespace ColumnStore
namespace Overlay

/-- The chains stand in ascending order of their rows. -/
def Ascending (chains : List (Nat × List Version)) : Prop := chains.Pairwise (·.1 < ·.1)

/-- The chain of a row in a list of chains. -/
def chainIn (chains : List (Nat × List Version)) (row : Nat) : List Version :=
  (chains.lookup row).getD []

theorem chainIn_cons (r : Nat) (c : List Version) (rest : List (Nat × List Version)) (row : Nat) :
    chainIn ((r, c) :: rest) row = if row = r then c else chainIn rest row := by
  by_cases h : row = r
  · simp [chainIn, h]
  · rw [chainIn, List.lookup_cons, beq_eq_false_iff_ne.mpr h, if_neg h, chainIn]

/-- No row in front of the first has a chain. -/
theorem chainIn_eq_nil {chains : List (Nat × List Version)} {row : Nat}
    (h : ∀ p ∈ chains, row < p.1) : chainIn chains row = [] := by
  induction chains with
  | nil => rfl
  | cons p rest ih =>
    have hp := h p List.mem_cons_self
    rw [chainIn_cons, if_neg (by omega), ih fun q hq => h q (List.mem_cons_of_mem _ hq)]

theorem chainIn_cons_self (row : Nat) (chain : List Version) {rest : List (Nat × List Version)}
    (hrest : ∀ p ∈ rest, row < p.1) (r : Nat) :
    chainIn (alter.cons row chain rest) r = if r = row then chain else chainIn rest r := by
  unfold alter.cons
  split
  · rename_i he
    split
    · rename_i hr
      rw [hr, chainIn_eq_nil hrest, List.isEmpty_iff.mp he]
    · rfl
  · exact chainIn_cons row chain rest r

/-- Rows of an altered list of chains were there before, but for the altered one. -/
theorem mem_alter {row : Nat} {f : List Version → List Version} {p : Nat × List Version}
    {chains : List (Nat × List Version)} (h : p ∈ alter row f chains) :
    p.1 = row ∨ ∃ q ∈ chains, q.1 = p.1 := by
  induction chains with
  | nil =>
    unfold alter alter.cons at h
    split at h
    · cases h
    · exact Or.inl (by rw [List.mem_singleton.mp h])
  | cons q rest ih =>
    obtain ⟨r, c⟩ := q
    unfold alter at h
    split at h
    · rcases List.mem_cons.mp h with rfl | h
      · exact Or.inr ⟨_, List.mem_cons_self, rfl⟩
      · exact (ih h).imp id fun ⟨q, hq, he⟩ => ⟨q, List.mem_cons_of_mem _ hq, he⟩
    · split at h <;> unfold alter.cons at h <;> split at h
      · exact Or.inr ⟨p, List.mem_cons_of_mem _ h, rfl⟩
      · rcases List.mem_cons.mp h with rfl | h
        · exact Or.inl rfl
        · exact Or.inr ⟨p, List.mem_cons_of_mem _ h, rfl⟩
      · exact Or.inr ⟨p, h, rfl⟩
      · rcases List.mem_cons.mp h with rfl | h
        · exact Or.inl rfl
        · exact Or.inr ⟨p, h, rfl⟩

/-- An altered list of chains stays in order. -/
theorem ascending_alter {chains : List (Nat × List Version)} (h : Ascending chains) (row : Nat)
    (f : List Version → List Version) : Ascending (alter row f chains) := by
  have hcons : ∀ (chain : List Version) (rest : List (Nat × List Version)), Ascending rest →
      (∀ p ∈ rest, row < p.1) → Ascending (alter.cons row chain rest) := by
    intro chain rest hr hlt
    unfold alter.cons
    split
    · exact hr
    · exact List.pairwise_cons.mpr ⟨hlt, hr⟩
  induction chains with
  | nil => exact hcons _ [] List.Pairwise.nil (by simp)
  | cons q rest ih =>
    obtain ⟨r, c⟩ := q
    obtain ⟨hlt, hrest⟩ := List.pairwise_cons.mp h
    unfold alter
    split
    · rename_i hr
      refine List.pairwise_cons.mpr ⟨fun p hp => ?_, ih hrest⟩
      rcases mem_alter hp with he | ⟨q, hq, he⟩
      · simp only [he, hr]
      · exact he ▸ hlt q hq
    · split
      · rename_i hr
        exact hcons _ _ hrest fun p hp => hr ▸ hlt p hp
      · refine hcons _ _ h fun p hp => ?_
        rcases List.mem_cons.mp hp with rfl | hp
        · omega
        · have := hlt p hp
          omega

/-- **To change the chain of a row leaves those of all others alone.** -/
theorem chainIn_alter {chains : List (Nat × List Version)} (h : Ascending chains) (row r : Nat)
    (f : List Version → List Version) :
    chainIn (alter row f chains) r =
      if r = row then f (chainIn chains row) else chainIn chains r := by
  induction chains with
  | nil =>
    rw [alter, chainIn_cons_self row _ (by simp)]
    rfl
  | cons q rest ih =>
    obtain ⟨r', c⟩ := q
    obtain ⟨hlt, hrest⟩ := List.pairwise_cons.mp h
    unfold alter
    split
    · rename_i hr
      rw [chainIn_cons, chainIn_cons, chainIn_cons, ih hrest]
      by_cases h1 : r = r'
      · rw [if_pos h1, if_pos h1, if_neg (by omega)]
      · rw [if_neg h1, if_neg h1, if_neg (show row ≠ r' by omega)]
    · split
      · rename_i hr
        rw [chainIn_cons_self row _ fun p hp => hr ▸ hlt p hp, chainIn_cons, chainIn_cons,
          if_pos hr.symm]
        by_cases h1 : r = row
        · rw [if_pos h1, if_pos h1]
        · rw [if_neg h1, if_neg h1, if_neg (show r ≠ r' by omega)]
      · have hall : ∀ p ∈ (r', c) :: rest, row < p.1 := by
          intro p hp
          rcases List.mem_cons.mp hp with rfl | hp
          · simp only; omega
          · have := hlt p hp
            omega
        rw [chainIn_cons_self row _ hall, chainIn_eq_nil hall]

/-- **A version that is added is the newest of its row.** -/
theorem chain_push {o : Overlay} (h : Ascending o.chains) (row : Nat) (v : Version) (r : Nat) :
    (o.push row v).chain r = if r = row then o.chain row ++ [v] else o.chain r :=
  chainIn_alter h row r _

/-- A version with another stamp if it carries that of a transaction. -/
def restamp (transaction time : Stamp) (v : Version) : Version :=
  if v.stamp = transaction then { v with stamp := time } else v

/-- **A commit changes the stamps of one row, and nothing else.** -/
theorem chain_commit {o : Overlay} (h : Ascending o.chains) (row : Nat)
    (transaction time : Stamp) (r : Nat) :
    (o.commit row transaction time).chain r =
      if r = row then (o.chain row).map (restamp transaction time) else o.chain r :=
  chainIn_alter h row r _

/-! ## Taking versions back -/

/-- Nothing is taken out of a chain without versions of the transaction. -/
theorem removeLast?_eq_none {stamp : Stamp} {chain : List Version}
    (h : ∀ v ∈ chain, v.stamp ≠ stamp) : removeLast? stamp chain = none := by
  induction chain with
  | nil => rfl
  | cons v rest ih =>
    have := ih fun w hw => h w (List.mem_cons_of_mem _ hw)
    simp [removeLast?, this, h v List.mem_cons_self]

/-- **What is taken back is the last version of the transaction.** -/
theorem removeLast?_append (stamp : Stamp) (front back : List Version) (v : Version)
    (hv : v.stamp = stamp) (hback : ∀ w ∈ back, w.stamp ≠ stamp) :
    removeLast? stamp (front ++ v :: back) = some (v.value, front ++ back) := by
  induction front with
  | nil => simp [removeLast?, removeLast?_eq_none hback, hv]
  | cons w rest ih => simp [removeLast?, ih]

/-- What is left of a chain when the last version of a transaction is taken back. -/
def dropLastOf (stamp : Stamp) (chain : List Version) : List Version :=
  match removeLast? stamp chain with
  | some (_, rest) => rest
  | none => chain

theorem chain_remove {o : Overlay} (h : Ascending o.chains) (row : Nat) (transaction : Stamp)
    (r : Nat) :
    (o.remove row transaction).2.chain r =
      if r = row then dropLastOf transaction (o.chain row) else o.chain r := by
  unfold remove dropLastOf
  cases hr : removeLast? transaction (o.chain row) with
  | none =>
    by_cases h1 : r = row
    · rw [if_pos h1, h1]
    · rw [if_neg h1]
  | some p => exact chainIn_alter h row r _

theorem ascending_push {o : Overlay} (h : Ascending o.chains) (row : Nat) (v : Version) :
    Ascending (o.push row v).chains := ascending_alter h row _

theorem ascending_commit {o : Overlay} (h : Ascending o.chains) (row : Nat)
    (transaction time : Stamp) : Ascending (o.commit row transaction time).chains :=
  ascending_alter h row _

theorem ascending_remove {o : Overlay} (h : Ascending o.chains) (row : Nat) (transaction : Stamp) :
    Ascending (o.remove row transaction).2.chains := by
  unfold remove
  split
  · exact ascending_alter h row _
  · exact h

end Overlay
end ColumnStore
