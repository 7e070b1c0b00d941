import Zurg.AgentMain
import Zurg.Auth.Manager
import Zurg.Control.Construct

/-!
# Zurg.Agent.Startup — what `main` makes of the configuration before it serves

The `features` and `auth` sections of the configuration file, the toggles and options the control
client is built with, and the calls `main` makes on its way there.
-/

namespace Zurg.Agent

open Control (Config FeatureToggles Options isTaskAllowed)
open Auth (AuthMode)

/-! ## `LoadAgentConfig` -/

structure FeaturesNode where
  enabled : Option Bool := none
  logFilter : Option Bool := none
  pcap : Option Bool := none
  exec : Option Bool := none
  deriving DecidableEq, Repr

structure AuthNode where
  enabled : Option Bool := none
  server : Option String := none
  persistenceFile : Option String := none
  mode : Option String := none
  deriving DecidableEq, Repr

/-- The configuration file: the sections of `ConfigNode` and these two. -/
structure RootNode where
  features : Option FeaturesNode := none
  auth : Option AuthNode := none
  logs : ConfigNode := {}
  deriving DecidableEq, Repr

/-- `AgentConfig::Auth`. -/
structure AuthConfig where
  enabled : Bool := false
  server : String := ""
  persistenceFile : String := ""
  mode : String := ""
  deriving DecidableEq, Repr

/-- Toggles that are off as a whole are off one by one; `SetFeatureTogglesInternal` does the
same. -/
def normalize (toggles : FeatureToggles) : FeatureToggles :=
  if toggles.enabled then toggles
  else { toggles with enableLogFilter := false, enablePcap := false, enableExec := false }

def FeaturesNode.load (node : FeaturesNode) : FeatureToggles :=
  let toggles : FeatureToggles := {}
  normalize
    { enabled := node.enabled.getD toggles.enabled
      enableLogFilter := node.logFilter.getD toggles.enableLogFilter
      enablePcap := node.pcap.getD toggles.enablePcap
      enableExec := node.exec.getD toggles.enableExec }

def AuthNode.load (node : AuthNode) : AuthConfig :=
  let authCfg : AuthConfig := {}
  { enabled := node.enabled.getD authCfg.enabled
    server := node.server.getD authCfg.server
    persistenceFile := node.persistenceFile.getD authCfg.persistenceFile
    mode := node.mode.getD authCfg.mode }

/-! ## The control client -/

/-- `GetFeatureToggles`, after `main` has called `SetFeatureToggles` if there is a section. -/
def featureToggles (root : RootNode) : FeatureToggles :=
  match root.features with
  | some node => normalize node.load
  | none => {}

/-- The options `StartAgent` builds the client with. -/
def clientOptions (root : RootNode) : Options where
  logOptions := agentLogOptions (loadAgentConfig root.logs)
  features := featureToggles root

def clientConfig (root : RootNode) (agentId : String) (tempDirectory : Option String) : Config :=
  (clientOptions root).config agentId tempDirectory

/-! ## The calls of `main` -/

/-- `ToLowerCopy`. -/
def toLowerCopy (value : String) : String := .ofList (value.toList.map Char.toLower)

inductive MainStep
  /-- `AuthManager`'s constructor. -/
  | createManager
  | setPersistenceFile (path : String)
  | setMode (mode : AuthMode)
  | start
  | checkAuthorization
  /-- The constructor of the control client. -/
  | subscribe
  | readLast
  | replay
  deriving DecidableEq, Repr

/-- The mode `main` sets, if `mode_overridden`. -/
def configuredMode (mode : String) : Option AuthMode :=
  if mode = "" then none
  else if toLowerCopy mode = "offline" then some .offline
  else if toLowerCopy mode = "unknown" then some .unknown
  else none

/-- What `main` does with an enabled manager. -/
def authScript (auth : AuthConfig) : List MainStep :=
  .createManager ::
    (if auth.persistenceFile = "" then [] else [.setPersistenceFile auth.persistenceFile]) ++
    ((configuredMode auth.mode).map .setMode).toList ++ [.start, .checkAuthorization]

def constructorScript : List MainStep := [.subscribe, .readLast, .replay]

/-- There is an `AuthManager`. -/
def RootNode.authEnabled (root : RootNode) : Option AuthConfig :=
  (root.auth.map AuthNode.load).filter (·.enabled)

/-- `main`, up to the return of the client's constructor. -/
def mainScript (root : RootNode) : List MainStep :=
  (root.authEnabled.map authScript).getD [] ++ constructorScript

/-- A kind of operation the configuration switches off, by itself or with all the others. -/
def FeaturesNode.Disables (node : FeaturesNode) (kind : Control.Kind) : Prop :=
  node.enabled = some false ∨
    match kind with
    | .logFilter => node.logFilter = some false
    | .pcap => node.pcap = some false
    | .exec => node.exec = some false

variable {root : RootNode} {node : FeaturesNode} {kind : Control.Kind}

/-- What the configuration switches off is off in the client. -/
theorem isTaskAllowed_of_disables (hroot : root.features = some node) (hd : node.Disables kind)
    (agentId : String) (tempDirectory : Option String) :
    isTaskAllowed (clientConfig root agentId tempDirectory).requestedFeatures kind = false := by
  have hreq : (clientConfig root agentId tempDirectory).requestedFeatures =
      normalize node.load := by
    simp only [clientConfig, Options.config, clientOptions, featureToggles, hroot]
  rw [hreq]
  rcases hd with he | hk
  · simp [isTaskAllowed, FeaturesNode.load, normalize, he]
  · cases he : node.enabled.getD true <;> cases kind <;>
      simp [isTaskAllowed, FeatureToggles.enables, FeaturesNode.load, normalize, he, hk]

end Zurg.Agent
