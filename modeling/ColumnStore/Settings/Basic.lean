/-
# Settings

What can be set, with the values that hold when nothing is said.  The environment wins over the
file, and the file over these values.  Names that mean nothing are ignored.
-/

import ColumnStore.Segment.Basic
import ColumnStore.Settings.Tree

namespace ColumnStore

/-- How data is stored. -/
structure StorageSettings where
  directory : String := "data"
  /-- The bytes of a block in a checkpoint. -/
  blockSize : Nat := 262144
  /-- The rows of a segment. -/
  segmentCapacity : Nat := 16384
  compression : String := "lz4"
  level : Int := 3
  deriving DecidableEq, Repr, Inhabited

/-- How the log is kept. -/
structure LogSettings where
  directory : String := "data/wal"
  /-- Whether a commit waits until the log is on the disk. -/
  sync : Bool := true
  bufferSize : Nat := 65536
  /-- The length of the log past which a commit starts a checkpoint; with 0 none does. -/
  checkpointThreshold : Nat := 16777216
  deriving DecidableEq, Repr, Inhabited

/-- How tables are scanned. -/
structure ScanSettings where
  /-- The most rows of a chunk. -/
  vectorSize : Nat := 2048
  threads : Nat := 0
  deriving DecidableEq, Repr, Inhabited

/-- What is told about the work, and where. -/
structure ReportSettings where
  directory : String := "logs"
  consoleLevel : String := "info"
  fileLevel : String := "debug"
  deriving DecidableEq, Repr, Inhabited

/-- All settings. -/
structure Settings where
  storage : StorageSettings := {}
  log : LogSettings := {}
  scan : ScanSettings := {}
  report : ReportSettings := {}
  deriving DecidableEq, Repr, Inhabited

/-- A section as far as the sources have it. -/
structure SettingsSection where
  name : String
  values : SettingTree

namespace SettingsSection

/-- The section with a name; one that is not there is empty. -/
def find (root : SettingTree) (name : String) : Except SettingsError SettingsSection :=
  match root.entries.lookup name with
  | none => .ok ⟨name, .group []⟩
  | some (.group es) => .ok ⟨name, .group es⟩
  | some (.items vs) => .ok ⟨name, .items vs⟩
  | some _ => .error (.noSection name)

/-- The value with a key; a list has the values in the order of the keys. -/
def value? (s : SettingsSection) (position : Nat) (key : String) : Option SettingTree :=
  match s.values with
  | .items vs => vs[position]?
  | t => t.entries.lookup key

/-- Reads the value with a key, if there is one. -/
def read {α : Type} (s : SettingsSection) (position : Nat) (key : String)
    (form : SettingTree → Option α) (default : α) : Except SettingsError α :=
  match s.value? position key with
  | none => .ok default
  | some t =>
    match form t with
    | some v => .ok v
    | none => .error (.badValue s.name key)

end SettingsSection

namespace Settings

def readStorage (s : SettingsSection) (d : StorageSettings) :
    Except SettingsError StorageSettings := do
  let directory ← s.read 0 "data_dir" SettingTree.toText? d.directory
  let blockSize ← s.read 1 "block_size" SettingTree.toNat? d.blockSize
  let segmentCapacity ← s.read 2 "segment_capacity" SettingTree.toNat? d.segmentCapacity
  let compression ← s.read 3 "compression" SettingTree.toText? d.compression
  let level ← s.read 4 "zstd_level" SettingTree.toInt? d.level
  pure { directory, blockSize, segmentCapacity, compression, level := level.bmod UInt32.size }

def readLog (s : SettingsSection) (d : LogSettings) : Except SettingsError LogSettings := do
  let directory ← s.read 0 "dir" SettingTree.toText? d.directory
  let sync ← s.read 1 "fsync" SettingTree.toFlag? d.sync
  let bufferSize ← s.read 2 "buffer_size" SettingTree.toNat? d.bufferSize
  let checkpointThreshold ← s.read 3 "checkpoint_threshold" SettingTree.toNat? d.checkpointThreshold
  pure { directory, sync, bufferSize, checkpointThreshold }

def readScan (s : SettingsSection) (d : ScanSettings) : Except SettingsError ScanSettings := do
  let vectorSize ← s.read 0 "vector_size" SettingTree.toNat? d.vectorSize
  let threads ← s.read 1 "scan_threads" SettingTree.toNat? d.threads
  pure { vectorSize, threads }

def readReport (s : SettingsSection) (d : ReportSettings) :
    Except SettingsError ReportSettings := do
  let directory ← s.read 0 "log_dir" SettingTree.toText? d.directory
  let consoleLevel ← s.read 1 "stdout_level" SettingTree.toText? d.consoleLevel
  let fileLevel ← s.read 2 "file_level" SettingTree.toText? d.fileLevel
  pure { directory, consoleLevel, fileLevel }

/-- The settings in a tree, over the values that hold otherwise. -/
def ofTree (root : SettingTree) : Except SettingsError Settings := do
  let storage ← readStorage (← SettingsSection.find root "storage") {}
  let log ← readLog (← SettingsSection.find root "wal") {}
  let scan ← readScan (← SettingsSection.find root "execution") {}
  let report ← readReport (← SettingsSection.find root "logging") {}
  pure { storage, log, scan, report }

/-- Loads the settings from the variables of the environment and the text of a file. -/
def load (environment : List (String × String)) (file : Option String) :
    Except SettingsError Settings := do
  let root ←
    match file with
    | none => pure (.group [])
    | some s => SettingTree.ofFile s
  ofTree (← environment.foldlM (fun t (name, value) => t.putVariable name value) root)

/-- The settings for a data directory, with the log below it. -/
def ofDirectory (directory : String) : Settings :=
  { storage := { directory }, log := { directory := directory ++ "/wal" } }

/-- How segments are made: at least one row each, and a scheme that can be asked for. -/
def segmentPolicy (s : Settings) : Except StorageError SegmentPolicy := do
  let compression ← (Scheme.parse s.storage.compression).mapError .codec
  pure { capacity := max s.storage.segmentCapacity 1, compression, level := s.storage.level }

/-- Where no source says anything, the values that hold otherwise are kept. -/
example : load [] none = .ok {} := rfl

end Settings
end ColumnStore
