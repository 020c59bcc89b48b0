/-
# Groups of the log

What a log holds are the groups of commits and the markers of checkpoints.  Replay applies group
after group (`Replay.applyAll`); what comes of it is known from the entries (`applyGroups_eq`).
-/

import ColumnStore.Log.Replay
import ColumnStore.Proofs.Attempts

namespace ColumnStore

/-- An entry that is part of a commit. -/
def LogEntry.IsChange : LogEntry → Prop
  | .checkpoint _ | .commit _ => False
  | _ => True

/-- What a commit or a checkpoint adds to the log. -/
inductive LogGroup where
  | changes (entries : List LogEntry) (time : Stamp)
  | marker (iteration : Nat)

namespace LogGroup

def entries : LogGroup → List LogEntry
  | changes es time => es ++ [.commit time]
  | marker n => [.checkpoint n]

/-- A group that ends where it says. -/
def Sound : LogGroup → Prop
  | changes es _ => ∀ e ∈ es, e.IsChange
  | marker _ => True

end LogGroup

namespace Replay

/-- The tables after a group. -/
def applyOne? (policy : SegmentPolicy) (c : Catalog) : LogGroup → Option Catalog
  | .changes es time =>
    match applyGroup policy time c es with
    | (.ok (), c) => some c
    | (.error _, _) => none
  | .marker _ => some c

/-- The tables after some groups, none when an entry is refused. -/
def applyAll? (policy : SegmentPolicy) : Catalog → List LogGroup → Option Catalog
  | c, [] => some c
  | c, g :: rest => (applyOne? policy c g).bind (applyAll? policy · rest)

theorem applyAll?_append (policy : SegmentPolicy) (c : Catalog) (groups more : List LogGroup) :
    applyAll? policy c (groups ++ more) =
      (applyAll? policy c groups).bind (applyAll? policy · more) := by
  induction groups generalizing c with
  | nil => rfl
  | cons g rest ih =>
    rw [List.cons_append, applyAll?, applyAll?, Option.bind_assoc]
    exact congrArg _ (funext fun c => ih c)

theorem applyAll?_concat {policy : SegmentPolicy} {c c' : Catalog} {groups : List LogGroup}
    (h : applyAll? policy c groups = some c') (g : LogGroup) :
    applyAll? policy c (groups ++ [g]) = applyOne? policy c' g := by
  rw [applyAll?_append, h, Option.bind_some]
  exact Option.bind_fun_some _

end Replay

/-- What is known of a replay from the entries alone. -/
def ReplaySummary.over (s : ReplaySummary) : List (LogEntry × Nat) → ReplaySummary
  | [] => s
  | (.commit time, stop) :: rest =>
    { s with
      commits := s.commits + 1
      lastCommit := max s.lastCommit time
      committedLength := stop }.over rest
  | _ :: rest => s.over rest

theorem ReplaySummary.over_changes {es : List (LogEntry × Nat)} (h : ∀ p ∈ es, p.1.IsChange)
    (s : ReplaySummary) (rest : List (LogEntry × Nat)) : s.over (es ++ rest) = s.over rest := by
  induction es with
  | nil => rfl
  | cons p more ih =>
    obtain ⟨e, stop⟩ := p
    have he := h _ List.mem_cons_self
    rw [List.cons_append, ← ih fun q hq => h q (List.mem_cons_of_mem _ hq)]
    cases e <;> first | rfl | exact he.elim

namespace Replay

variable {policy : SegmentPolicy}

/-- Changes wait for their commit. -/
theorem applyGroups_changes {es : List (LogEntry × Nat)} (h : ∀ p ∈ es, p.1.IsChange)
    (pending : List LogEntry) (s : ReplaySummary) (c : Catalog) (rest : List (LogEntry × Nat)) :
    applyGroups policy pending s c (es ++ rest) =
      applyGroups policy ((es.map (·.1)).reverse ++ pending) s c rest := by
  induction es generalizing pending with
  | nil => rfl
  | cons p more ih =>
    obtain ⟨e, stop⟩ := p
    have he := h _ List.mem_cons_self
    have hmore := ih (fun q hq => h q (List.mem_cons_of_mem _ hq)) (e :: pending)
    rw [List.map_cons, List.reverse_cons, List.append_assoc, List.singleton_append, ← hmore]
    cases e <;> first | rfl | exact he.elim

/-- The entries of a group with the places behind them. -/
theorem of_map_entries {g : LogGroup} (hg : g.Sound) {es : List (LogEntry × Nat)}
    (h : es.map (·.1) = g.entries) :
    (∃ n stop, g = .marker n ∧ es = [(.checkpoint n, stop)]) ∨
      ∃ changes time stop, g = .changes (changes.map (·.1)) time ∧
        es = changes ++ [(.commit time, stop)] ∧ ∀ p ∈ changes, p.1.IsChange := by
  cases g with
  | marker n =>
    obtain ⟨⟨e, stop⟩, rfl, he⟩ := List.map_eq_singleton_iff.mp h
    obtain rfl : e = .checkpoint n := he
    exact Or.inl ⟨n, stop, rfl, rfl⟩
  | changes entries time =>
    obtain ⟨front, back, rfl, hfront, hback⟩ := List.map_eq_append_iff.mp h
    obtain ⟨⟨e, stop⟩, rfl, he⟩ := List.map_eq_singleton_iff.mp hback
    obtain rfl : e = .commit time := he
    refine Or.inr ⟨front, time, stop, by rw [hfront], rfl, fun p hp => ?_⟩
    exact hg p.1 (hfront ▸ List.mem_map_of_mem hp)

/-- **A whole group is applied.** -/
theorem applyGroups_group {g : LogGroup} (hg : g.Sound) {es : List (LogEntry × Nat)}
    (h : es.map (·.1) = g.entries) {c c' : Catalog} (hc : applyOne? policy c g = some c')
    (s : ReplaySummary) (rest : List (LogEntry × Nat)) :
    applyGroups policy [] s c (es ++ rest) = applyGroups policy [] (s.over es) c' rest := by
  rcases of_map_entries hg h with ⟨n, stop, rfl, rfl⟩ | ⟨changes, time, stop, rfl, rfl, hchanges⟩
  · obtain rfl := Option.some.inj hc
    rfl
  · rw [applyOne?] at hc
    rw [List.append_assoc, applyGroups_changes hchanges, s.over_changes hchanges, List.append_nil,
      List.singleton_append, applyGroups, List.reverse_reverse]
    split at hc
    · rename_i c₁ ha
      obtain rfl := Option.some.inj hc
      rw [ha]
      rfl
    · cases hc

/-- **Groups are applied one after the other.** -/
theorem applyGroups_append {groups : List LogGroup} (hg : ∀ g ∈ groups, g.Sound)
    {es : List (LogEntry × Nat)} (h : es.map (·.1) = groups.flatMap LogGroup.entries)
    {c c' : Catalog} (hc : applyAll? policy c groups = some c') (s : ReplaySummary)
    (rest : List (LogEntry × Nat)) :
    applyGroups policy [] s c (es ++ rest) = applyGroups policy [] (s.over es) c' rest := by
  induction groups generalizing es c s with
  | nil =>
    obtain rfl := List.map_eq_nil_iff.mp h
    obtain rfl := Option.some.inj hc
    rfl
  | cons g more ih =>
    rw [List.flatMap_cons] at h
    obtain ⟨front, back, rfl, hfront, hback⟩ := List.map_eq_append_iff.mp h
    obtain ⟨c₁, hone, hall⟩ := Option.bind_eq_some_iff.mp hc
    rw [List.append_assoc, applyGroups_group (hg g List.mem_cons_self) hfront hone,
      ih (fun g' h' => hg g' (List.mem_cons_of_mem _ h')) hback hall]
    congr 1
    rcases of_map_entries (hg g List.mem_cons_self) hfront with
      ⟨n, stop, rfl, rfl⟩ | ⟨changes, time, stop, rfl, rfl, hchanges⟩
    · rfl
    · rw [s.over_changes hchanges, List.append_assoc, s.over_changes hchanges]
      rfl

/-- **A replay of whole groups succeeds when the groups can be applied.** -/
theorem applyGroups_eq {groups : List LogGroup} (hg : ∀ g ∈ groups, g.Sound)
    {es : List (LogEntry × Nat)} (h : es.map (·.1) = groups.flatMap LogGroup.entries)
    {c c' : Catalog} (hc : applyAll? policy c groups = some c') (s : ReplaySummary) :
    applyGroups policy [] s c es = (.ok { s.over es with discarded := 0 }, c') := by
  have := applyGroups_append hg h hc s []
  rw [List.append_nil] at this
  rw [this]
  rfl

end Replay

/-! ## Times -/

namespace LogGroup

/-- The time of a commit. -/
def time : LogGroup → Stamp
  | changes _ time => time
  | marker _ => 0

/-- The time of the last commit. -/
def last (groups : List LogGroup) : Stamp := (groups.map time).foldr max 0

@[simp] theorem last_nil : last [] = 0 := rfl

theorem last_cons (g : LogGroup) (groups : List LogGroup) :
    last (g :: groups) = max g.time (last groups) := rfl

theorem last_append (groups more : List LogGroup) :
    last (groups ++ more) = max (last groups) (last more) := by
  induction groups with
  | nil => exact (Nat.max_eq_right (Nat.zero_le _)).symm
  | cons g rest ih => rw [List.cons_append, last_cons, last_cons, ih, Nat.max_assoc]

end LogGroup

/-- **A replay finds the time of the last commit.** -/
theorem ReplaySummary.lastCommit_over {groups : List LogGroup} (hg : ∀ g ∈ groups, g.Sound)
    {es : List (LogEntry × Nat)} (h : es.map (·.1) = groups.flatMap LogGroup.entries)
    (s : ReplaySummary) : (s.over es).lastCommit = max s.lastCommit (LogGroup.last groups) := by
  induction groups generalizing es s with
  | nil =>
    obtain rfl := List.map_eq_nil_iff.mp h
    exact (Nat.max_eq_left (Nat.zero_le _)).symm
  | cons g rest ih =>
    rw [List.flatMap_cons] at h
    obtain ⟨front, back, rfl, hfront, hback⟩ := List.map_eq_append_iff.mp h
    have hmore := fun s => ih (fun g' h' => hg g' (List.mem_cons_of_mem _ h')) hback s
    rw [LogGroup.last_cons, ← Nat.max_assoc]
    rcases Replay.of_map_entries (hg g List.mem_cons_self) hfront with
      ⟨n, stop, rfl, rfl⟩ | ⟨changes, time, stop, rfl, rfl, hchanges⟩
    · change (s.over back).lastCommit = _
      rw [hmore]
      exact congrArg (max · _) (Nat.max_eq_left (Nat.zero_le _)).symm
    · rw [List.append_assoc, s.over_changes hchanges, List.singleton_append, ReplaySummary.over,
        hmore]
      rfl

/-! ## Markers -/

namespace Replay

variable {policy : SegmentPolicy}

/-- Entries that end with a marker that a checkpoint covers, or none. -/
def CoveredBy (iteration : Nat) (old : List (LogEntry × Nat)) : Prop :=
  old = [] ∨ ∃ front n stop, old = front ++ [(.checkpoint n, stop)] ∧ n ≤ iteration

/-- **The entries up to the last marker that is covered are skipped.** -/
theorem covered_append {iteration : Nat} {old es : List (LogEntry × Nat)}
    (hold : CoveredBy iteration old) (hes : ∀ p ∈ es, isCovered iteration p.1 = false) :
    covered iteration (old ++ es) = old.length := by
  have hall : ∀ p ∈ es.reverse, (!isCovered iteration p.1) = true := fun p hp => by
    rw [hes p (List.mem_reverse.mp hp)]
    rfl
  have htake : (old ++ es).reverse.takeWhile (fun e => !isCovered iteration e.1) = es.reverse := by
    rw [List.reverse_append, List.takeWhile_append_of_pos hall]
    rcases hold with rfl | ⟨front, n, stop, rfl, hn⟩
    · rw [List.reverse_nil, List.takeWhile_nil, List.append_nil]
    · rw [List.reverse_append, List.reverse_singleton, List.singleton_append,
        List.takeWhile_cons_of_neg (by simpa [isCovered] using hn), List.append_nil]
  rw [covered, htake, List.length_append, List.length_reverse, Nat.add_sub_cancel]

/-- The place behind some entries of a log. -/
def placeBehind (old : List (LogEntry × Nat)) : Nat :=
  match old.getLast? with
  | some (_, stop) => stop
  | none => FileHeader.length

/-- **What a log adds to a checkpoint** is what comes behind the entries that are skipped. -/
theorem ofContents_append {iteration : Nat} {old es : List (LogEntry × Nat)}
    (hold : CoveredBy iteration old) (hes : ∀ p ∈ es, isCovered iteration p.1 = false)
    (c : Catalog) (validLength : Nat) (torn : Bool) :
    ofContents policy iteration c { entries := old ++ es, validLength, torn } =
      applyGroups policy []
        { skipped := old.length, validLength,
          committedLength := min (placeBehind old) validLength, torn } c es := by
  rw [ofContents]
  simp only [covered_append hold hes, List.take_left, List.drop_left]
  rfl

end Replay
end ColumnStore
