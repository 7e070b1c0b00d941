import Zurg.LogOps.Sources

/-!
# Zurg.AgentMain — the logging options of `agent_main.cpp`

`LoadAgentConfig` and `main`, as far as they configure the agent's own log file and the log filter.
A key of the configuration file that is missing, or not of its type, is `none`.

`main` takes the depth of the rotation scan from `max_files` when it is 0, but a `log_filter` section
that leaves it out has the 2 of `Options` (`rotations_searched_iff`).
-/

namespace Zurg

open Lib LogOps
open Control (LogOptions)

structure LoggingConfig where
  file : String := ""
  maxFiles : ℕ := 5
  maxSizeBytes : ℕ := 10 * 1024 * 1024
  deriving DecidableEq, Repr

/-- `AgentConfig`. -/
structure AgentConfig where
  logging : Option LoggingConfig := none
  logFilter : Option LogOptions := none
  deriving DecidableEq, Repr

/-! ## `LoadAgentConfig` -/

structure LoggingNode where
  file : Option String := none
  maxFiles : Option ℕ := none
  maxSizeBytes : Option ℕ := none
  deriving DecidableEq, Repr

structure LogFilterNode where
  logRoot : Option String := none
  tempDir : Option String := none
  chunkSize : Option ℕ := none
  cleanupTempFile : Option Bool := none
  basePath : Option String := none
  includeRotations : Option Bool := none
  rotationScanDepth : Option ℕ := none
  outputBasename : Option String := none
  deriving DecidableEq, Repr

/-- The sections of a configuration file. -/
structure ConfigNode where
  logging : Option LoggingNode := none
  logFilter : Option LogFilterNode := none
  deriving DecidableEq, Repr

def LoggingNode.load (node : LoggingNode) : LoggingConfig :=
  let loggingCfg : LoggingConfig := {}
  { file := node.file.getD loggingCfg.file
    maxFiles := node.maxFiles.getD loggingCfg.maxFiles
    maxSizeBytes := node.maxSizeBytes.getD loggingCfg.maxSizeBytes }

def LogFilterNode.load (node : LogFilterNode) : LogOptions :=
  let opts : LogOptions := {}
  { logRoot := node.logRoot.getD opts.logRoot
    tempDir := node.tempDir.getD opts.tempDir
    chunkSize := node.chunkSize.getD opts.chunkSize
    cleanupTempFile := node.cleanupTempFile.getD opts.cleanupTempFile
    basePath := node.basePath.getD opts.basePath
    includeRotations := node.includeRotations.getD opts.includeRotations
    rotationScanDepth := node.rotationScanDepth.getD opts.rotationScanDepth
    outputBasename := node.outputBasename.getD opts.outputBasename }

/-- `LoadAgentConfig`. -/
def loadAgentConfig (root : ConfigNode) : AgentConfig :=
  { logging := root.logging.map LoggingNode.load
    logFilter := root.logFilter.map LogFilterNode.load }

/-! ## `main` -/

/-- `logging_cfg`. -/
def loggingCfg (config : AgentConfig) : Option LoggingConfig :=
  config.logging.map fun logging => { logging with
    maxFiles := max 1 logging.maxFiles
    maxSizeBytes := max 1024 logging.maxSizeBytes }

/-- What `main` hands to `SetLogOptions`, if it does. -/
def setLogOptions (config : AgentConfig) : Option LogOptions :=
  match config.logFilter, loggingCfg config with
  | some opts, some logging =>
    let opts := if opts.includeRotations && opts.rotationScanDepth == 0 then
      { opts with rotationScanDepth := logging.maxFiles % 2 ^ 32 } else opts
    some (if opts.basePath = "" ∧ logging.file ≠ "" then
      { opts with basePath := logging.file } else opts)
  | some opts, none => some opts
  | none, some logging =>
    if logging.file = "" then none
    else some
      { basePath := logging.file
        includeRotations := true
        rotationScanDepth := logging.maxFiles % 2 ^ 32 }
  | none, none => none

/-- The log options `StartAgent` gives to the client. -/
def agentLogOptions (config : AgentConfig) : LogOptions := (setLogOptions config).getD {}

/-- The candidates of a log filter, as `StreamLogFilter` comes to them. -/
def searched (fs : FileSystem) (opts : LogOptions) : Option (List Path) := do
  let root ← makeRoot fs opts.logRoot
  let base ← resolvePath fs root opts.basePath
  enumerateCandidates base opts.includeRotations opts.rotationScanDepth

/-! ## Which rotations are searched -/

/-- The names `rotating_file_sink_mt` gives to its files: the `n`-th rotation of `stem.ext` is
`stem.n.ext`, and that of `name` is `name.n`. -/
structure SinkNames (file : Path) (names : ℕ → List Char) : Prop where
  base : names 0 = file.filename
  rotation : ∀ n, 1 ≤ n → names n = file.stem ++ '.' :: digits n ++ file.extension

/-- A `log_filter` section that leaves the root, the base path and the depth out. -/
structure LogFilterNode.Plain (node : LogFilterNode) : Prop where
  includeRotations : node.load.includeRotations = true
  logRoot : node.logRoot = none
  basePath : node.basePath = none
  rotationScanDepth : node.rotationScanDepth = none

variable {fs : FileSystem} {dir file : Path} {names : ℕ → List Char} {config : ConfigNode}
  {logging : LoggingNode} {name : String} {n : ℕ}

/-- The files of the sink, by their names in the canonical directory. -/
theorem sinkFile_eq (hdir : dir.IsDirectory) (hfile : file.filename ≠ [])
    (hnames : SinkNames file names) (n : ℕ) :
    dir / ⟨names n⟩ = sinkFile (dir / ⟨file.filename⟩) n := by
  have hslash := file.slash_notMem_filename
  have hname : (dir / ⟨file.filename⟩ : Path).filename = file.filename := Path.filename_div hslash
  have hstem := Path.stemExtension_congr hname
  have hext : (dir / ⟨file.filename⟩ : Path).extension = file.extension := congrArg Prod.snd hstem
  have hstem' : (dir / ⟨file.filename⟩ : Path).stem = file.stem := congrArg Prod.fst hstem
  unfold sinkFile
  split_ifs with hn hnil
  · rw [hn, hnames.base]
  · rw [hext] at hnil
    have hs : file.stem = file.filename := by
      rw [← file.stem_append_extension, hnil, List.append_nil]
    have hnumber : '/' ∉ '.' :: digits n := by simpa using notMem_digits (by decide)
    rw [hnames.rotation n (by omega), hnil, List.append_nil, hs]
    exact congrArg Zurg.Lib.Path.mk (Path.chars_div_append hslash hnumber).symm
  · rw [hnames.rotation n (by omega), rotated, hstem', hext, hdir.parentPath_div hslash hfile]

/-- The file and its rotations up to `n`. -/
def Searches (dir : Path) (names : ℕ → List Char) (n : ℕ) (candidates : List Path) : Prop :=
  ∀ i ≤ n, dir / ⟨names i⟩ ∈ candidates

/-- The depth that `main` arrives at. -/
theorem agentLogOptions_load (hlogging : config.logging = some logging)
    (hname : logging.file = some name) (hne : name ≠ "") (hn : logging.load.maxFiles = n)
    (hpos : 1 ≤ n) (hlt : n < 2 ^ 31)
    (hfilter : ∀ node, config.logFilter = some node → node.Plain) :
    (agentLogOptions (loadAgentConfig config)).logRoot = "" ∧
    (agentLogOptions (loadAgentConfig config)).basePath = name ∧
    (agentLogOptions (loadAgentConfig config)).includeRotations = true ∧
    (agentLogOptions (loadAgentConfig config)).rotationScanDepth =
      if config.logFilter = none then n else 2 := by
  have hcfg : loggingCfg (loadAgentConfig config) = some { logging.load with
      maxFiles := max 1 logging.load.maxFiles
      maxSizeBytes := max 1024 logging.load.maxSizeBytes } := by
    simp only [loggingCfg, loadAgentConfig, hlogging, Option.map_some]
  have hfile : logging.load.file = name := by simp [LoggingNode.load, hname]
  have hdepth : max 1 n % 2 ^ 32 = n := by omega
  unfold agentLogOptions setLogOptions
  rw [hcfg]
  cases hsection : config.logFilter with
  | none =>
    have hload : (loadAgentConfig config).logFilter = none := by
      simp [loadAgentConfig, hsection]
    simp only [hload, hfile, hne, hn, hdepth, if_false, Option.getD_some, if_true, and_self]
  | some node =>
    have hload : (loadAgentConfig config).logFilter = some node.load := by
      simp [loadAgentConfig, hsection]
    obtain ⟨hrot, hroot, hbase, hscan⟩ := hfilter node hsection
    have hroot' : node.load.logRoot = "" := by simp [LogFilterNode.load, hroot]
    have hbase' : node.load.basePath = "" := by simp [LogFilterNode.load, hbase]
    have hscan' : node.load.rotationScanDepth = 2 := by simp [LogFilterNode.load, hscan]
    simp [hload, hfile, hne, hrot, hroot', hbase', hscan']

/-- **Every rotated file is searched** exactly if there is no `log_filter` section, or there are at
most two rotations. -/
theorem rotations_searched_iff (hlogging : config.logging = some logging)
    (hname : logging.file = some name) (hne : name ≠ "") (hn : logging.load.maxFiles = n)
    (hpos : 1 ≤ n) (hlt : n < 2 ^ 31)
    (hfilter : ∀ node, config.logFilter = some node → node.Plain)
    (hdir : dir.IsDirectory) (hfile : (Path.ofString name).filename ≠ [])
    (hlink : fs.weaklyCanonical (.ofString name) = some (dir / ⟨(Path.ofString name).filename⟩))
    (hnames : SinkNames (.ofString name) names) :
    ∃ candidates, searched fs (agentLogOptions (loadAgentConfig config)) = some candidates ∧
      (Searches dir names n candidates ↔ config.logFilter = none ∨ n ≤ 2) := by
  obtain ⟨hroot, hbase, hrot, hdepth⟩ :=
    agentLogOptions_load hlogging hname hne hn hpos hlt hfilter
  have hresolve : resolvePath fs {} name = some (dir / ⟨(Path.ofString name).filename⟩) := by
    simp [resolvePath, normalizePath, hlink]
  have heff : effectiveDepth (if config.logFilter = none then n else 2) =
      if config.logFilter = none then n else 2 := by
    unfold effectiveDepth
    split_ifs <;> omega
  have hsearched : searched fs (agentLogOptions (loadAgentConfig config)) = enumerateCandidates
      (dir / ⟨(Path.ofString name).filename⟩) true (if config.logFilter = none then n else 2) := by
    simp [searched, hroot, hbase, hrot, hdepth, makeRoot, hresolve]
  refine ⟨_, hsearched.trans (enumerateCandidates_eq ?_), ?_⟩
  · rw [heff]
    split_ifs <;> omega
  · simp only [Searches, sinkFile_eq hdir hfile hnames, sinkFile_mem_iff, heff]
    cases config.logFilter with
    | none => exact iff_of_true (fun i hi => hi) (.inl rfl)
    | some node =>
      simp only [reduceCtorEq, if_false, false_or]
      exact ⟨fun h => h n (Nat.le_refl n), fun h i hi => hi.trans h⟩

/-- The file system of a machine without links. -/
def plainFs : FileSystem := { numberedFs with existsAt := fun _ => .ok true }

/-- The files of the sink on `/var/log/zurg/agent.log`. -/
def agentLogNames (n : ℕ) : List Char :=
  if n = 0 then "agent.log".toList else "agent".toList ++ '.' :: digits n ++ ".log".toList

theorem agentLogNames_sink : SinkNames (.ofString "/var/log/zurg/agent.log") agentLogNames where
  base := by decide
  rotation n hn := by
    rw [agentLogNames, if_neg (by omega)]
    rfl

/-- The sample configuration, without its `log_filter` section. -/
def loggingOnly : ConfigNode :=
  { logging := some { file := some "/var/log/zurg/agent.log", maxFiles := some 5 } }

theorem rotations_searched_iff_loggingOnly : ∃ candidates,
    searched plainFs (agentLogOptions (loadAgentConfig loggingOnly)) = some candidates ∧
    Searches (.ofString "/var/log/zurg") agentLogNames 5 candidates := by
  obtain ⟨candidates, hsearched, hiff⟩ : ∃ candidates,
      searched plainFs (agentLogOptions (loadAgentConfig loggingOnly)) = some candidates ∧
      (Searches (.ofString "/var/log/zurg") agentLogNames 5 candidates ↔
        loggingOnly.logFilter = none ∨ 5 ≤ 2) :=
    rotations_searched_iff rfl rfl (by decide) rfl (by decide) (by decide)
      (fun node hnode => absurd hnode.symm (Option.some_ne_none node)) (by decide) (by decide) rfl
      agentLogNames_sink
  exact ⟨candidates, hsearched, hiff.mpr (.inl rfl)⟩

/-- The sample configuration, less its empty `log_root`. -/
def sampleConfig : ConfigNode :=
  { loggingOnly with
    logFilter := some
      { logRoot := none, tempDir := some "/tmp", includeRotations := some true
        outputBasename := some "filtered", chunkSize := some 65536, cleanupTempFile := some true } }

/-- With it the third rotation is not searched. -/
theorem rotations_not_searched : ¬ ∀ fs config logging name n dir names,
    config.logging = some logging → logging.file = some name → name ≠ "" →
    logging.load.maxFiles = n → 1 ≤ n → n < 2 ^ 31 →
    (∀ node, config.logFilter = some node → node.Plain) →
    dir.IsDirectory → (Path.ofString name).filename ≠ [] →
    fs.weaklyCanonical (.ofString name) = some (dir / ⟨(Path.ofString name).filename⟩) →
    SinkNames (.ofString name) names →
    ∃ candidates, searched fs (agentLogOptions (loadAgentConfig config)) = some candidates ∧
      Searches dir names n candidates := by
  intro hall
  obtain ⟨candidates, hsearched, h⟩ := hall plainFs sampleConfig _ _ 5
    (.ofString "/var/log/zurg") agentLogNames rfl rfl (by decide) rfl (by decide) (by decide)
    (fun node hnode => Option.some.inj hnode ▸ ⟨rfl, rfl, rfl, rfl⟩) (by decide) (by decide) rfl
    agentLogNames_sink
  have hlist : enumerateCandidates (.ofString "/var/log/zurg/agent.log") true 2 = some _ :=
    enumerateCandidates_eq (by decide)
  have hsame : searched plainFs (agentLogOptions (loadAgentConfig sampleConfig)) =
      enumerateCandidates (.ofString "/var/log/zurg/agent.log") true 2 := rfl
  obtain rfl := Option.some.inj (hlist.symm.trans (hsame.symm.trans hsearched))
  exact absurd (h 3 (by decide)) (by decide)

end Zurg
