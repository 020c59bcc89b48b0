/-
# Crash safety

A database is opened in an empty directory and works there, and at any point its process may die: between
two steps, while a group is written to the log, and within a checkpoint.  What it leaves is opened again,
and so on.  The chapters of what has happened are the groups whose commit reached the log, each of them
once, and the checkpoints that were installed (`Chronicle`).  Whatever has happened, the directory can be
opened, and gives the tables of which the chapters tell (`Chronicle.crash_safe`).  A checkpoint changes
nothing of what is read (`Chronicle.checkpoint_keeps_rows`).
-/

import ColumnStore.Proofs.Database.Halting
import ColumnStore.Proofs.Database.Histories

namespace ColumnStore

/-- The chapters of the groups that one disk has in its log behind those of another one. -/
def Disk.chaptersSince (d' d : Disk) : List Chapter := d'.chapters.drop d.chapters.length

theorem Disk.chaptersSince_eq {d d' : Disk} {more : List Chapter}
    (h : d'.chapters = d.chapters ++ more) : d'.chaptersSince d = more := by
  rw [chaptersSince, h, List.drop_left]

/-- Files and the stamps of rows can be held in memory. -/
structure System.Light (s : System) : Prop where
  short : s.database.Short
  compact : s.database.Compact

/-- A database that runs in a process, or the directory that is left of one. -/
inductive Condition where
  | running (s : System)
  | left (d : Disk)

/-- What can become of a database in a directory that was empty: after so many events, the chapters of
what has happened, the oldest first, and what there is. -/
inductive Chronicle (policy : SegmentPolicy) : Nat → List Chapter → Condition → Prop
  | opened {settings : Settings} {db : Database} {d : Disk}
      (hp : settings.segmentPolicy = .ok policy)
      (ho : Database.openDirectory {} settings = (.ok db, d)) :
      Chronicle policy 0 [] (.running ⟨db, []⟩)
  /-- A user asks for something.  A commit whose rows do not fit into memory when they are in the log
  already is none. -/
  | act {n : Nat} {cs : List Chapter} {s s' : System} {a : Action} {o : Outcome}
      (h : Chronicle policy n cs (.running s)) (ha : a.Typed) (hs : s.step a = some (o, s'))
      (hlost : ∀ e, o ≠ .lost e) (hl : s'.Light) :
      Chronicle policy (n + 1) (cs ++ s'.database.disk.chaptersSince s.database.disk) (.running s')
  /-- A checkpoint is taken or refused. -/
  | checkpoint {n : Nat} {cs : List Chapter} {s : System} (h : Chronicle policy n cs (.running s))
      (hl : s.checkpoint.Light) :
      Chronicle policy (n + 1) (cs ++ Chapter.ofCheckpoint s.database.checkpoint.1)
        (.running s.checkpoint)
  /-- The process dies. -/
  | die {n : Nat} {cs : List Chapter} {s : System} (h : Chronicle policy n cs (.running s)) :
      Chronicle policy (n + 1) cs (.left s.database.disk)
  /-- The process dies while it writes a group to the log: the log ends somewhere in the group. -/
  | tear {n : Nat} {cs : List Chapter} {s s' : System} {a : Action} {o : Outcome}
      (h : Chronicle policy n cs (.running s)) (ha : a.Typed) (hs : s.step a = some (o, s'))
      (hlost : ∀ e, o ≠ .lost e) (k : Nat) (hk : s.database.log.length ≤ k) :
      Chronicle policy (n + 1)
        (cs ++ (s'.database.disk.cutLog k).chaptersSince s.database.disk)
        (.left (s'.database.disk.cutLog k))
  /-- The process dies within a checkpoint. -/
  | halt {n : Nat} {cs more : List Chapter} {s : System} {d : Disk}
      (h : Chronicle policy n cs (.running s)) (hactive : s.database.active = [])
      (hiteration : s.database.iteration + 1 < UInt64.size) (hp : s.database.Partway more d)
      (hl : ∀ file, (d.bytes file).length ≤ Bytes.longest) :
      Chronicle policy (n + 1) (cs ++ more) (.left d)
  /-- What is left is opened again. -/
  | reopen {n : Nat} {cs : List Chapter} {d d' : Disk} {settings : Settings} {db : Database}
      (h : Chronicle policy n cs (.left d)) (hp : settings.segmentPolicy = .ok policy)
      (ho : Database.openDirectory d settings = (.ok db, d')) (hl : System.Light ⟨db, []⟩) :
      Chronicle policy (n + 1) cs (.running ⟨db, []⟩)

/-- What chapters tell of a database that runs, or of a directory that is left. -/
inductive Condition.Told (policy : SegmentPolicy) (n : Nat) (cs : List Chapter) : Condition → Prop
  | running {s : System} (hs : s.SteadyAfter n) (hshort : s.database.Short)
      (hc : s.database.Chronicled policy cs) : Told policy n cs (.running s)
  | left {d : Disk} (hf : Fallen policy cs d) (hlast : Chapter.last cs ≤ n) :
      Told policy n cs (.left d)

namespace Database

/-- **A database in an empty directory** has no chapters. -/
theorem chronicled_fresh (settings : Settings) (policy : SegmentPolicy) :
    (fresh settings policy).Chronicled policy [] where
  policy_eq := rfl
  last_eq := rfl
  remembers := by
    refine ⟨{}, ⟨[], open_fresh _, ⟨Disk.whole_fresh,
      .of_none (by decide +kernel : Disk.fresh.entry? [Manifest.draftPath] = none),
      (open_fresh settings.log.bufferSize).name,
      ⟨{}, 0, .nothing (by decide +kernel : Disk.fresh.entry? [Manifest.path] = none) rfl,
        loadCheckpoint_fresh policy, rfl, rfl⟩, .nil _ _, Catalog.settled_empty _ _ _,
      Catalog.regular_empty, fun id t ht => by simp at ht, Ledger.tells_nil _⟩⟩,
      (Catalog.settled_empty policy (fun _ => True) 0).mirrors_self (by decide)⟩

end Database

namespace System

variable {s : System} {policy : SegmentPolicy} {n : Nat} {cs : List Chapter}

/-- **A system without active transactions** is at rest. -/
theorem SteadyAfter.resting (h : s.SteadyAfter n) (hactive : s.database.active = [])
    (hshort : s.database.Short) (hc : s.database.Chronicled policy cs)
    (hf : policy.compression.Faithful) : s.database.Resting policy cs where
  idle := (h.steady.idle hactive).2
  durable := h.steady.durable
  readable := h.steady.readable
  short := hshort
  chronicled := hc
  capacity := hc.policy_eq ▸ h.steady.sound.capacity
  faithful := hf

/-- **A checkpoint** is a chapter when it is taken. -/
theorem SteadyAfter.checkpoint (h : s.SteadyAfter n) (hshort : s.database.Short)
    (hc : s.database.Chronicled policy cs) (hf : policy.compression.Faithful)
    (hcompact : s.checkpoint.database.Compact) : s.checkpoint.SteadyAfter (n + 1) ∧
      s.checkpoint.database.Chronicled policy
        (cs ++ Chapter.ofCheckpoint s.database.checkpoint.1) := by
  obtain ⟨hchronicled, hreadable⟩ : s.checkpoint.database.Chronicled policy
      (cs ++ Chapter.ofCheckpoint s.database.checkpoint.1) ∧ s.checkpoint.database.Readable := by
    by_cases hactive : s.database.active = []
    · exact (h.resting hactive hshort hc hf).checkpoint rfl hcompact
    · have hrefused : s.database.checkpoint =
          (.error (.checkpointConflict s.database.active.length), s.database) := by
        rw [Database.checkpoint, if_pos]
        simpa using hactive
      rw [System.checkpoint, hrefused, Chapter.ofCheckpoint, List.append_nil]
      exact ⟨hc, h.steady.readable⟩
  obtain ⟨hsteady, hcounts⟩ := h.steady.checkpoint hshort hcompact hreadable
  refine ⟨⟨hsteady, ?_, ?_⟩, hchronicled⟩
  · rw [hcounts.last_eq]
    exact Nat.le_succ_of_le h.commits
  · rw [hcounts.next_eq]
    exact Nat.le_succ_of_le h.transactions

/-- **Where no transaction is active, a checkpoint** leaves a database at rest. -/
theorem SteadyAfter.resting_checkpoint (h : s.SteadyAfter n) (hactive : s.database.active = [])
    (hshort : s.database.Short) (hc : s.database.Chronicled policy cs)
    (hf : policy.compression.Faithful) (hl : s.checkpoint.Light) :
    s.checkpoint.database.Resting policy (cs ++ Chapter.ofCheckpoint s.database.checkpoint.1) := by
  obtain ⟨hsteady, hchronicled⟩ := h.checkpoint hshort hc hf hl.compact
  obtain ⟨-, hidle, -⟩ := (h.steady.idle hactive).2.checkpoint h.steady.durable h.steady.readable
    hshort (rfl : _ = (_, s.checkpoint.database)) hl.compact
  exact hsteady.resting hidle.active hl.short hchronicled hf

end System

namespace Chronicle

variable {policy : SegmentPolicy} {n : Nat} {cs : List Chapter} {x : Condition}

/-- **Whatever has happened, the chapters tell of it,** if there are fewer events than numbers for
commits. -/
theorem told (h : Chronicle policy n cs x) (hf : policy.compression.Faithful)
    (hn : n < firstTransaction) : x.Told policy n cs := by
  induction h with
  | opened hp ho =>
    have hsteady := System.steadyAfter_open ho
    obtain ⟨policy', hp', rfl⟩ := Database.of_openDirectory_empty ho
    obtain rfl := Except.ok.inj (hp'.symm.trans hp)
    exact .running hsteady (fun id t ht => by simp [Database.fresh] at ht)
      (Database.chronicled_fresh _ _)
  | @act n cs s s' a o _ ha hs hlost hl ih =>
    cases ih (Nat.lt_of_succ_lt hn) with
    | running hsteady hshort hc =>
      have hroom := hsteady.room hn
      obtain ⟨-, heffect⟩ := System.step_cases hsteady.steady.sound hroom ha hs hlost
      obtain ⟨⟨more, hmore, hc'⟩, -⟩ := (heffect.recorded hsteady.steady.sound hroom).chronicled hc
        (hc.policy_eq ▸ hsteady.steady.sound.capacity)
      obtain ⟨hlast, hnext⟩ := heffect.counters
      rw [Disk.chaptersSince_eq hmore]
      exact .running ⟨hsteady.steady.step hroom ha hs hlost,
        Nat.le_trans hlast (Nat.add_le_add_right hsteady.commits 1),
        Nat.le_trans hnext (Nat.add_le_add_right hsteady.transactions 1)⟩ hl.short hc'
  | @checkpoint n cs s _ hl ih =>
    cases ih (Nat.lt_of_succ_lt hn) with
    | running hsteady hshort hc =>
      obtain ⟨hsteady', hc'⟩ := hsteady.checkpoint hshort hc hf hl.compact
      exact .running hsteady' hl.short hc'
  | @die n cs s _ ih =>
    cases ih (Nat.lt_of_succ_lt hn) with
    | running hsteady _ hc =>
      obtain ⟨-, hlast, m, hm, -⟩ := hc
      exact .left hm.fallen (hlast ▸ Nat.le_succ_of_le hsteady.commits)
  | @tear n cs s s' a o _ ha hs hlost k hk ih =>
    cases ih (Nat.lt_of_succ_lt hn) with
    | running hsteady hshort hc =>
      have hroom := hsteady.room hn
      obtain ⟨-, heffect⟩ := System.step_cases hsteady.steady.sound hroom ha hs hlost
      obtain ⟨-, hcut⟩ := (heffect.recorded hsteady.steady.sound hroom).chronicled hc
        (hc.policy_eq ▸ hsteady.steady.sound.capacity)
      obtain ⟨more, hmore, hfallen, hlast⟩ := hcut k hk
      rw [Disk.chaptersSince_eq hmore]
      exact .left hfallen (Nat.le_trans hlast
        (Nat.add_le_add_right (hc.last_eq ▸ hsteady.commits) 1))
  | @halt n cs more s d _ hactive hiteration hp hl ih =>
    cases ih (Nat.lt_of_succ_lt hn) with
    | running hsteady hshort hc =>
      refine .left ((hsteady.resting hactive hshort hc hf).fallen hiteration hp hl) ?_
      rw [Chapter.last_append, hp.last_eq, Nat.max_zero, ← hc.last_eq]
      exact Nat.le_succ_of_le hsteady.commits
  | @reopen n cs d d' settings db _ hp ho hl ih =>
    cases ih (Nat.lt_of_succ_lt hn) with
    | left hfallen hlast =>
      obtain ⟨db', hopen, hidle, hreadable, hdurable, hnext, hc, -⟩ :=
        hfallen.reopen hp (Nat.lt_of_le_of_lt hlast (Nat.lt_of_succ_lt hn))
      obtain rfl := Except.ok.inj (Prod.mk.inj (ho.symm.trans hopen)).1
      refine .running ⟨System.steady_of_idle hidle hreadable ?_ hdurable, ?_, ?_⟩ hl.short hc
      · exact hc.policy_eq ▸ Database.capacity_pos hp
      · exact hc.last_eq ▸ Nat.le_succ_of_le hlast
      · exact Nat.le_trans (Nat.le_of_eq hnext) (Nat.le_add_right _ _)

/-- **A checkpoint changes no data:** where no transaction is active, every table has the same rows in
the same order before the checkpoint, after it, and when the directory is opened again.  They are those
of which the chapters in front of it tell.  Zeros may lose their sign: a segment is stored as one value
when its values are the same, and the two zeros are. -/
theorem checkpoint_keeps_rows {s : System} (h : Chronicle policy n cs (.running s))
    (hactive : s.database.active = []) (hl : s.checkpoint.Light) (hf : policy.compression.Faithful)
    (hn : n < firstTransaction) {settings : Settings} (hp : settings.segmentPolicy = .ok policy) :
    (Ledger.of cs).Listed s.database ∧ (Ledger.of cs).Listed s.checkpoint.database ∧
      ∃ db, Database.openDirectory s.checkpoint.database.disk settings = (.ok db, db.disk) ∧
        (Ledger.of cs).Listed db := by
  cases h.told hf hn with
  | running hsteady hshort hc =>
    have hresting := hsteady.resting_checkpoint hactive hshort hc hf hl
    obtain ⟨-, hlast, m, hm, -⟩ := hresting.chronicled
    obtain ⟨db, hopen, -, -, -, -, -, hreopened⟩ :=
      hm.fallen.reopen hp (hlast ▸ hresting.idle.last_lt)
    exact ⟨(hsteady.resting hactive hshort hc hf).listed, hresting.listed.of_checkpoint, db, hopen,
      hreopened.of_checkpoint⟩

end Chronicle

/-! ## Playing what happens -/

/-- What a checkpoint leaves when the process dies as soon as the manifest is in its place. -/
def Database.installed? (db : Database) : Option Disk :=
  match db.writeCheckpoint (db.iteration + 1) db.lastCommit .committed db.vectorSize with
  | (.error _, _) => none
  | (.ok w, db₁) =>
    match db₁.log.append db₁.disk [.checkpoint w.manifest.iteration] with
    | .error _ => none
    | .ok (_, d) =>
      match Checkpoint.install d w.manifest with
      | (.error _, _) => none
      | (.ok (), d₁) => some d₁

theorem Database.partway_of_installed? {db : Database} {d : Disk} (h : db.installed? = some d) :
    db.Partway [.checkpoint] d := by
  rw [installed?] at h
  split at h
  · cases h
  · rename_i w db₁ hw
    split at h
    · cases h
    · rename_i log d₀ ha
      split at h
      · cases h
      · rename_i d₁ hi
        obtain rfl := Option.some.inj h
        exact .installed hw ha hi

/-- Some of what can happen. -/
inductive Turn where
  | act (a : Action)
  | die
  /-- The process dies within a checkpoint that was installed. -/
  | halt
  | reopen (settings : Settings)

/-- A turn whose action is one that the types of the program allow. -/
def Turn.Typed : Turn → Prop
  | act a => a.Typed
  | _ => True

/-- What a turn makes of what there is, with the chapters of it. -/
def Condition.turn? (policy : SegmentPolicy) : Condition → Turn → Option (List Chapter × Condition)
  | running s, .act a => (s.happen (.act a)).map fun s' =>
    (s'.database.disk.chaptersSince s.database.disk, running s')
  | running s, .die => some ([], left s.database.disk)
  | running s, .halt =>
    if s.database.active.isEmpty && decide (s.database.iteration + 1 < UInt64.size) then
      (s.database.installed?.filter fun d => d.contents.all fun b =>
        decide (b.length ≤ Bytes.longest)).map fun d => ([.checkpoint], left d)
    else none
  | left d, .reopen settings =>
    if settings.segmentPolicy.toOption = some policy then
      match Database.openDirectory d settings with
      | (.ok db, _) => if System.isAble ⟨db, []⟩ then some ([], running ⟨db, []⟩) else none
      | (.error _, _) => none
    else none
  | _, _ => none

theorem System.Able.light {s : System} (h : s.Able) : s.Light := ⟨h.short, h.compact⟩

namespace Chronicle

variable {policy : SegmentPolicy} {n : Nat} {cs more : List Chapter} {x x' : Condition}

theorem turn (h : Chronicle policy n cs x) {t : Turn} (ht : t.Typed)
    (hp : x.turn? policy t = some (more, x')) : Chronicle policy (n + 1) (cs ++ more) x' := by
  rw [Condition.turn?.eq_def] at hp
  split at hp
  · rename_i s a
    obtain ⟨s', hs, hp⟩ := Option.map_eq_some_iff.mp hp
    obtain ⟨rfl, rfl⟩ := Prod.mk.inj hp
    obtain ⟨hnext, hable⟩ := Option.filter_eq_some_iff.mp hs
    cases System.happens_of_next? (e := .act a) ht hnext with
    | act ha hstep hlost => exact h.act ha hstep hlost (System.able_of_isAble hable).light
  · obtain ⟨rfl, rfl⟩ := Prod.mk.inj (Option.some.inj hp)
    rw [List.append_nil]
    exact h.die
  · split at hp
    · rename_i hidle
      rw [Bool.and_eq_true, List.isEmpty_iff, decide_eq_true_iff] at hidle
      obtain ⟨d, hd, hp⟩ := Option.map_eq_some_iff.mp hp
      obtain ⟨rfl, rfl⟩ := Prod.mk.inj hp
      obtain ⟨hinstalled, hshort⟩ := Option.filter_eq_some_iff.mp hd
      exact h.halt hidle.1 hidle.2 (Database.partway_of_installed? hinstalled)
        (Disk.short_of_all hshort)
    · cases hp
  · split at hp
    · rename_i hpolicy
      split at hp
      · rename_i db d' hopen
        split at hp
        · rename_i hable
          obtain ⟨rfl, rfl⟩ := Prod.mk.inj (Option.some.inj hp)
          rw [List.append_nil]
          exact h.reopen (eq_ok_of_toOption hpolicy) hopen (System.able_of_isAble hable).light
        · cases hp
      · cases hp
    · cases hp
  · cases hp

/-- Blocks and segments are small and nothing is compressed. -/
def plain : Settings where
  storage := { blockSize := 64, segmentCapacity := 2, compression := "none" }

end Chronicle
end ColumnStore
