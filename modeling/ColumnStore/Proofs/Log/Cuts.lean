/-
# Logs that are cut off

A log holds groups, each with the place behind it (`Log.Groups`).  When the end of a log is cut off,
the groups that end in front of the cut are left, and behind them the first changes of the next one
(`Log.Groups.cut`).  A replay applies what is left of the groups behind the last marker that the
checkpoint covers, and drops the changes (`Log.Groups.replay_cut`).
-/

import ColumnStore.Proofs.Log.Frames
import ColumnStore.Proofs.Log.Groups
import Mathlib.Data.List.DropRight

namespace ColumnStore

/-- Whether a group is the marker of a checkpoint that the one with a number covers. -/
def LogGroup.isCovered (iteration : Nat) : LogGroup → Bool
  | .marker n => n ≤ iteration
  | .changes .. => false

/-- Whether a group is a marker. -/
def LogGroup.isMarker : LogGroup → Bool
  | .marker _ => true
  | .changes .. => false

namespace Log

/-- Entries that are groups one behind the other, with the place behind each group. -/
inductive Groups : List (LogEntry × Nat) → List (LogGroup × Nat) → Prop
  | nil : Groups [] []
  | changes {es more : List (LogEntry × Nat)} {gs : List (LogGroup × Nat)} {time : Stamp}
      {stop : Nat} (h : ∀ p ∈ es, p.1.IsChange) (hr : Groups more gs) :
      Groups (es ++ (.commit time, stop) :: more) ((.changes (es.map (·.1)) time, stop) :: gs)
  | marker {more : List (LogEntry × Nat)} {gs : List (LogGroup × Nat)} {n stop : Nat}
      (hr : Groups more gs) : Groups ((.checkpoint n, stop) :: more) ((.marker n, stop) :: gs)

/-- The groups that end within the first bytes. -/
def within (n : Nat) (gs : List (LogGroup × Nat)) : List (LogGroup × Nat) := gs.filter (·.2 ≤ n)

/-- The groups behind the last marker that a checkpoint covers. -/
def behind (iteration : Nat) (gs : List (LogGroup × Nat)) : List (LogGroup × Nat) :=
  gs.rtakeWhile (!·.1.isCovered iteration)

/-- Behind the last group there is nothing to cut off. -/
theorem within_min {gs : List (LogGroup × Nat)} {m : Nat} (h : ∀ g ∈ gs, g.2 ≤ m) (n : Nat) :
    within (min n m) gs = within n gs := by
  refine List.filter_congr fun g hg => decide_eq_decide.mpr ?_
  have := h g hg
  omega

namespace Groups

variable {es more : List (LogEntry × Nat)} {gs hs : List (LogGroup × Nat)}

theorem append (h : Groups es gs) (h' : Groups more hs) : Groups (es ++ more) (gs ++ hs) := by
  induction h with
  | nil => exact h'
  | changes hc _ ih =>
    rw [List.append_assoc, List.cons_append]
    exact .changes hc ih
  | marker _ ih => exact .marker ih

/-- Groups are taken apart where the entries are. -/
theorem split (h : Groups es (gs ++ hs)) :
    ∃ front back, es = front ++ back ∧ Groups front gs ∧ Groups back hs := by
  induction gs generalizing es with
  | nil => exact ⟨[], es, rfl, .nil, h⟩
  | cons g gs ih =>
    cases h with
    | changes hc hr =>
      obtain ⟨front, back, rfl, hfront, hback⟩ := ih hr
      exact ⟨_, back, by rw [List.append_assoc, List.cons_append], .changes hc hfront, hback⟩
    | marker hr =>
      obtain ⟨front, back, rfl, hfront, hback⟩ := ih hr
      exact ⟨_, back, rfl, .marker hfront, hback⟩

/-- The entries are those of the groups. -/
theorem entries_eq (h : Groups es gs) :
    es.map (·.1) = (gs.map (·.1)).flatMap LogGroup.entries := by
  induction h with
  | nil => rfl
  | changes _ _ ih => simp [LogGroup.entries, ih]
  | marker _ ih => simp [LogGroup.entries, ih]

theorem sound (h : Groups es gs) : ∀ g ∈ gs.map (·.1), g.Sound := by
  induction h with
  | nil => exact fun g hg => absurd hg List.not_mem_nil
  | changes hc _ ih =>
    intro g hg
    rcases List.mem_cons.mp hg with rfl | hg
    · intro e he
      obtain ⟨p, hp, rfl⟩ := List.mem_map.mp he
      exact hc p hp
    · exact ih g hg
  | marker _ ih =>
    intro g hg
    rcases List.mem_cons.mp hg with rfl | hg
    · exact trivial
    · exact ih g hg

/-- The entries of a group are a group. -/
theorem single {g : LogGroup} (hg : g.Sound) (h : es.map (·.1) = g.entries) :
    ∃ stop, Groups es [(g, stop)] := by
  rcases Replay.of_map_entries hg h with
    ⟨n, stop, rfl, rfl⟩ | ⟨changes, time, stop, rfl, rfl, hchanges⟩
  · exact ⟨stop, .marker .nil⟩
  · exact ⟨stop, .changes hchanges .nil⟩

/-- A group ends with the entry that closes it. -/
theorem stop_mem (h : Groups es gs) : ∀ g ∈ gs, ∃ e, ¬e.IsChange ∧ (e, g.2) ∈ es := by
  induction h with
  | nil => exact fun g hg => absurd hg List.not_mem_nil
  | @changes es _ _ time stop _ _ ih =>
    intro g hg
    rcases List.mem_cons.mp hg with rfl | hg
    · exact ⟨.commit time, id, List.mem_append_right _ List.mem_cons_self⟩
    · obtain ⟨e, hne, he⟩ := ih g hg
      exact ⟨e, hne, List.mem_append_right _ (List.mem_cons_of_mem _ he)⟩
  | @marker _ _ n _ _ ih =>
    intro g hg
    rcases List.mem_cons.mp hg with rfl | hg
    · exact ⟨.checkpoint n, id, List.mem_cons_self⟩
    · obtain ⟨e, hne, he⟩ := ih g hg
      exact ⟨e, hne, List.mem_cons_of_mem _ he⟩

/-! ## Cutting -/

/-- What is left of groups behind a cut: the groups that end in front of it, and changes. -/
def LeftBy (n : Nat) (kept : List (LogEntry × Nat)) (gs : List (LogGroup × Nat)) : Prop :=
  ∃ front orphans rest, kept = front ++ orphans ∧ gs = within n gs ++ rest ∧
    Groups front (within n gs) ∧ (∀ p ∈ orphans, p.1.IsChange) ∧ ∀ g ∈ rest, n < g.2

/-- Of a first group that is not whole there are changes left, and nothing of the others. -/
theorem cut_inside {kept lost : List (LogEntry × Nat)} {n : Nat} (h : Groups (kept ++ lost) gs)
    (hkept : ∀ p ∈ kept, p.1.IsChange) (hlost : ∀ p ∈ lost, n < p.2) : LeftBy n kept gs := by
  have hall : ∀ g ∈ gs, n < g.2 := fun g hg => by
    obtain ⟨e, hne, he⟩ := h.stop_mem g hg
    rcases List.mem_append.mp he with he | he
    · exact absurd (hkept _ he) hne
    · exact hlost _ he
  have hwithin : within n gs = [] :=
    List.filter_eq_nil_iff.mpr fun g hg => by simpa using hall g hg
  exact ⟨[], kept, gs, rfl, by rw [hwithin]; rfl, by rw [hwithin]; exact .nil, hkept, hall⟩

theorem LeftBy.cons {kept : List (LogEntry × Nat)} {n : Nat} (h : LeftBy n kept gs)
    (front : List (LogEntry × Nat)) (g : LogGroup × Nat) (hg : g.2 ≤ n)
    (hfront : ∀ {es hs}, Groups es hs → Groups (front ++ es) (g :: hs)) :
    LeftBy n (front ++ kept) (g :: gs) := by
  obtain ⟨es, orphans, rest, rfl, hgs, hes, horphans, hrest⟩ := h
  have hwithin : within n (g :: gs) = g :: within n gs := List.filter_cons_of_pos (by simpa using hg)
  refine ⟨front ++ es, orphans, rest, by rw [List.append_assoc], ?_, ?_, horphans, hrest⟩
  · rw [hwithin, List.cons_append, ← hgs]
  · rw [hwithin]
    exact hfront hes

/-- **Of groups that are cut off, those are left that end in front of the cut,** and the first
changes of the next one. -/
theorem cut {kept lost : List (LogEntry × Nat)} {n : Nat} (h : Groups (kept ++ lost) gs)
    (hkept : ∀ p ∈ kept, p.2 ≤ n) (hlost : ∀ p ∈ lost, n < p.2) : LeftBy n kept gs := by
  generalize hes : kept ++ lost = es at h
  induction h generalizing kept with
  | nil =>
    obtain ⟨rfl, rfl⟩ := List.append_eq_nil_iff.mp hes
    exact cut_inside (hes ▸ .nil) (fun p hp => absurd hp List.not_mem_nil) hlost
  | @changes es more gs time stop hc hr ih =>
    -- The commit is among what is left, or there are only changes left.
    by_cases hin : ∀ p ∈ kept, p.1.IsChange
    · exact cut_inside (hes ▸ .changes hc hr) hin hlost
    · rcases List.append_eq_append_iff.mp hes with ⟨tail, rfl, -⟩ | ⟨tail, rfl, hback⟩
      · exact absurd (fun p hp => hc p (List.mem_append_left _ hp)) hin
      · cases tail with
        | nil => exact absurd (fun p hp => hc p (List.append_nil es ▸ hp)) hin
        | cons p tail =>
          obtain ⟨rfl, hmore⟩ := List.cons.inj hback
          have hleft := @ih tail (fun p hp => hkept p
            (List.mem_append_right _ (List.mem_cons_of_mem _ hp))) hmore.symm
          have hstop := hkept _ (List.mem_append_right es List.mem_cons_self)
          have := hleft.cons (es ++ [(.commit time, stop)])
            (.changes (es.map (·.1)) time, stop) hstop fun hg => by
              rw [List.append_assoc]
              exact .changes hc hg
          rwa [List.append_assoc] at this
  | @marker more gs m stop hr ih =>
    cases kept with
    | nil => exact cut_inside (hes ▸ .marker hr) (fun p hp => absurd hp List.not_mem_nil) hlost
    | cons p tail =>
      obtain ⟨rfl, hmore⟩ := List.cons.inj hes
      have hleft := @ih tail (fun p hp => hkept p (List.mem_cons_of_mem _ hp)) hmore
      exact hleft.cons [(.checkpoint m, stop)] (.marker m, stop) (hkept _ List.mem_cons_self) .marker

end Groups

/-! ## Replaying what is left -/

variable {es : List (LogEntry × Nat)} {gs : List (LogGroup × Nat)} {iteration : Nat}

/-- Groups that a checkpoint does not cover stay behind its last marker. -/
theorem behind_append {rest : List (LogGroup × Nat)}
    (h : ∀ g ∈ rest, g.1.isCovered iteration = false) (gs : List (LogGroup × Nat)) :
    behind iteration (gs ++ rest) = behind iteration gs ++ rest := by
  have hall : ∀ g ∈ rest.reverse, (!g.1.isCovered iteration) = true := fun g hg => by
    rw [h g (List.mem_reverse.mp hg)]
    rfl
  rw [behind, behind, List.rtakeWhile, List.rtakeWhile, List.reverse_append,
    List.takeWhile_append_of_pos hall, List.reverse_append, List.reverse_reverse]

theorem not_isCovered_of_behind {g : LogGroup × Nat} (h : g ∈ behind iteration gs) :
    g.1.isCovered iteration = false := by
  simpa using List.mem_rtakeWhile_imp h

/-- The entries of groups that a checkpoint does not cover are not covered. -/
theorem Groups.uncovered (h : Groups es gs) (hgs : ∀ g ∈ gs, g.1.isCovered iteration = false) :
    ∀ p ∈ es, Replay.isCovered iteration p.1 = false := by
  induction h with
  | nil => exact fun p hp => absurd hp List.not_mem_nil
  | changes hc _ ih =>
    intro p hp
    rcases List.mem_append.mp hp with hp | hp
    · have he := hc p hp
      revert he
      cases p.1 <;> first | exact fun _ => rfl | exact False.elim
    · rcases List.mem_cons.mp hp with rfl | hp
      · rfl
      · exact ih (fun g hg => hgs g (List.mem_cons_of_mem _ hg)) p hp
  | marker _ ih =>
    intro p hp
    rcases List.mem_cons.mp hp with rfl | hp
    · exact hgs _ List.mem_cons_self
    · exact ih (fun g hg => hgs g (List.mem_cons_of_mem _ hg)) p hp

/-- **The groups behind the last marker that is covered** are what a replay does not skip. -/
theorem Groups.behind_split (h : Groups es gs) (iteration : Nat) :
    ∃ old new front, es = old ++ new ∧ gs = front ++ behind iteration gs ∧ Groups old front ∧
      Groups new (behind iteration gs) ∧ Replay.CoveredBy iteration old := by
  have hgs : gs.rdropWhile (!·.1.isCovered iteration) ++ behind iteration gs = gs :=
    List.rdropWhile_append_rtakeWhile
  obtain ⟨old, new, rfl, hold, hnew⟩ := split (hgs ▸ h)
  refine ⟨old, new, _, rfl, hgs.symm, hold, hnew, ?_⟩
  rcases List.eq_nil_or_concat (gs.rdropWhile (!·.1.isCovered iteration)) with
    hnil | ⟨front, ⟨g, stop⟩, hconcat⟩
  · rw [hnil] at hold
    cases hold
    exact Or.inl rfl
  · -- The last group that is dropped is a marker that is covered.
    have hne : gs.rdropWhile (!·.1.isCovered iteration) ≠ [] := by simp [hconcat]
    have hlast := List.rdropWhile_last_not _ _ hne
    simp only [hconcat, List.concat_eq_append, List.getLast_append_singleton, Bool.not_eq_true,
      Bool.not_eq_false'] at hlast
    rw [hconcat, List.concat_eq_append] at hold
    obtain ⟨a, b, rfl, -, hb⟩ := hold.split
    cases hb with
    | changes => cases hlast
    | @marker _ _ n _ hr =>
      cases hr
      exact Or.inr ⟨a, n, stop, rfl, by simpa [LogGroup.isCovered] using hlast⟩

end Log

/-- Markers are not applied. -/
theorem Replay.applyAll?_markers {policy : SegmentPolicy} {gs : List LogGroup}
    (h : ∀ g ∈ gs, g.isMarker = true) (c : Catalog) : applyAll? policy c gs = some c := by
  induction gs with
  | nil => rfl
  | cons g rest ih =>
    cases g with
    | changes => exact absurd (h _ List.mem_cons_self) Bool.false_ne_true
    | marker n => exact ih fun g hg => h g (List.mem_cons_of_mem _ hg)

theorem ReplaySummary.over_append (s : ReplaySummary) (es more : List (LogEntry × Nat)) :
    s.over (es ++ more) = (s.over es).over more := by
  induction es generalizing s with
  | nil => rfl
  | cons p rest ih =>
    obtain ⟨e, stop⟩ := p
    cases e <;> exact ih _

namespace Log

variable {es : List (LogEntry × Nat)} {gs : List (LogGroup × Nat)} {iteration : Nat}

/-- Markers change nothing that is known of a replay. -/
theorem Groups.over_markers (h : Groups es gs) (hgs : ∀ g ∈ gs, g.1.isMarker = true)
    (s : ReplaySummary) : s.over es = s := by
  induction h with
  | nil => rfl
  | changes => cases hgs _ List.mem_cons_self
  | marker _ ih => exact ih fun g hg => hgs g (List.mem_cons_of_mem _ hg)

theorem placeBehind_concat (es : List (LogEntry × Nat)) (e : LogEntry) (stop : Nat) :
    Replay.placeBehind (es ++ [(e, stop)]) = stop := by
  rw [Replay.placeBehind, List.getLast?_concat]

/-- The place behind the frames of a log. -/
theorem placeBehind_frames {b : Bytes} (h : Frame.Frames FileHeader.length b es) :
    Replay.placeBehind es = FileHeader.length + b.length := by
  rcases List.eq_nil_or_concat es with rfl | ⟨front, ⟨e, stop⟩, rfl⟩
  · cases h
    rfl
  · rw [List.concat_eq_append] at h ⊢
    obtain ⟨a, c, rfl, -, hlast⟩ := h.split
    rw [placeBehind_concat, List.length_append, ← Nat.add_assoc]
    cases hlast with
    | cons hw hr =>
      cases hr
      rw [List.append_nil]

/-- **A replay of what is left of groups** applies those behind the last marker that is covered,
drops the changes behind them, and stands behind the last of the groups, markers apart. -/
theorem Groups.replay_cut {orphans : List (LogEntry × Nat)} {policy : SegmentPolicy}
    {c c' : Catalog} (h : Groups es gs) (horphans : ∀ p ∈ orphans, p.1.IsChange)
    (validLength : Nat) (torn : Bool)
    (hvalid : ∀ front back, es = front ++ back → Replay.placeBehind front ≤ validLength)
    (hc : Replay.applyAll? policy c ((behind iteration gs).map (·.1)) = some c') :
    ∃ summary front back kept markers,
      Replay.ofContents policy iteration c { entries := es ++ orphans, validLength, torn } =
        (.ok summary, c') ∧ summary.discarded = orphans.length ∧
      summary.lastCommit = LogGroup.last ((behind iteration gs).map (·.1)) ∧
      summary.committedLength = Replay.placeBehind front ∧ es = front ++ back ∧
      gs = kept ++ markers ∧ Groups front kept ∧
      ∀ g ∈ markers, g.1.isMarker = true ∧ g.1.isCovered iteration = false := by
  obtain ⟨old, new, older, rfl, hgs, hold, hnew, hcovered⟩ := h.behind_split iteration
  have hsplit : (behind iteration gs).rdropWhile (·.1.isMarker) ++
      (behind iteration gs).rtakeWhile (·.1.isMarker) = behind iteration gs :=
    List.rdropWhile_append_rtakeWhile
  obtain ⟨done, rest, rfl, hdone, hrest⟩ := split (hsplit ▸ hnew)
  have hmarkers : ∀ g ∈ (behind iteration gs).rtakeWhile (·.1.isMarker), g.1.isMarker = true ∧
      g.1.isCovered iteration = false := fun g hg =>
    ⟨by simpa using List.mem_rtakeWhile_imp hg,
      not_isCovered_of_behind (hsplit ▸ List.mem_append_right _ hg)⟩
  have hfree : ∀ p ∈ (done ++ rest) ++ orphans, Replay.isCovered iteration p.1 = false := by
    intro p hp
    rcases List.mem_append.mp hp with hp | hp
    · exact hnew.uncovered (fun g => not_isCovered_of_behind) p hp
    · have he := horphans p hp
      revert he
      cases p.1 <;> first | exact fun _ => rfl | exact False.elim
  have hreplay := @Replay.ofContents_append policy _ _ _ hcovered hfree c validLength torn
  rw [Replay.applyGroups_append hnew.sound hnew.entries_eq hc,
    ← List.append_nil orphans, Replay.applyGroups_changes horphans, List.append_nil orphans,
    ← List.append_assoc] at hreplay
  refine ⟨_, old ++ done, rest, older ++ _, _, hreplay, by simp, ?_, ?_, by simp, ?_,
    hold.append hdone, hmarkers⟩
  · exact (ReplaySummary.lastCommit_over hnew.sound hnew.entries_eq _).trans
      (Nat.max_eq_right (Nat.zero_le _))
  · simp only
    rw [ReplaySummary.over_append, hrest.over_markers fun g hg => (hmarkers g hg).1]
    -- Behind the groups that are skipped stands the last commit, if there is one.
    rcases List.eq_nil_or_concat ((behind iteration gs).rdropWhile (·.1.isMarker)) with
      hnil | ⟨front, ⟨g, stop⟩, hconcat⟩
    · rw [hnil] at hdone
      cases hdone
      simp only [ReplaySummary.over, List.append_nil]
      exact Nat.min_eq_left (hvalid old rest (by simp))
    · have hne : (behind iteration gs).rdropWhile (·.1.isMarker) ≠ [] := by simp [hconcat]
      have hlast := List.rdropWhile_last_not _ _ hne
      simp only [hconcat, List.concat_eq_append, List.getLast_append_singleton] at hlast
      rw [hconcat, List.concat_eq_append] at hdone
      obtain ⟨a, b, rfl, -, hb⟩ := hdone.split
      cases hb with
      | marker => exact absurd rfl hlast
      | @changes cs _ _ time _ hcs hr =>
        cases hr
        rw [ReplaySummary.over_append, ReplaySummary.over_changes hcs, ← List.append_assoc a,
          ← List.append_assoc old, placeBehind_concat]
        rfl
  · rw [List.append_assoc, hsplit]
    exact hgs

end Log
end ColumnStore
