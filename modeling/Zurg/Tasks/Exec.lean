import Zurg.LogOps.Filter
import Zurg.Tasks.Run

/-!
# Zurg.Tasks.Exec — `LogFilterTask::Run` and `ExecTask::Run`

A log filter task never asks whether to go on.  An exec task asks once, when it has collected the
interfaces.
-/

namespace Zurg.Tasks

open Proto Grpc LogOps
open Control (LogOptions TaskOutput execValidate logFilterRun)

/-! ## Log filter -/

/-- `LogFilterTask::Run`; `none` if it does not return, or an exception leaves it. -/
def runLogFilter (fs : FileSystem) (opts : LogOptions) (spec : LogFilterSpec) : Option TaskRun :=
  let run := streamLogFilter fs opts spec (some fun _ _ => .success) (some {})
  match run.result with
  | some (.ok status) =>
    let result := if status.ok then .ok (run.eof.getD {})
      else .error (status.code.number, status.message)
    some
      { outputs := logFilterRun run.chunks result
        state := if status.ok then .completed else .failed
        tempFile := run.tempFile }
  | _ => none

/-! ## Exec -/

inductive Family
  | inet
  | inet6
  | other
  deriving DecidableEq, Repr

/-- An entry of the list `getifaddrs` makes. -/
structure IfAddr where
  /-- `ifa_name`, unless it is null. -/
  name : Option Bytes
  /-- `IFF_UP`. -/
  up : Bool
  /-- The family of `ifa_addr`, unless it is null, and the host `getnameinfo` finds, if it does. -/
  addr : Option (Family × Option Bytes)
  deriving DecidableEq, Repr

structure InterfaceInfo where
  name : Bytes
  addresses : List Bytes := []
  deriving DecidableEq, Repr

/-- The network interfaces. -/
structure Interfaces where
  /-- The list of `getifaddrs`, unless it fails. -/
  ifaddrs : Option (List IfAddr)
  /-- How an `unordered_map` is gone through. -/
  iterate : List InterfaceInfo → List InterfaceInfo
  iterate_perm : ∀ info, (iterate info).Perm info

/-- The text of an address. -/
def addressText : Family × Option Bytes → Option Bytes
  | (.inet, some host) => some (bytes "ipv4=" ++ host)
  | (.inet6, some host) => some (bytes "ipv6=" ++ host)
  | _ => none

/-- `info[name]`, with the addresses of one more entry. -/
def addAddresses (name : Bytes) (addresses : List Bytes) :
    List InterfaceInfo → List InterfaceInfo
  | [] => [{ name := name, addresses := addresses }]
  | entry :: info =>
    if entry.name = name then { entry with addresses := entry.addresses ++ addresses } :: info
    else entry :: addAddresses name addresses info

/-- The loop over the list of `getifaddrs`. -/
def collect (info : List InterfaceInfo) (ifa : IfAddr) : List InterfaceInfo :=
  match ifa.name with
  | none => info
  | some name =>
    if !ifa.up then info else addAddresses name (ifa.addr.bind addressText).toList info

def interfaceLine (entry : InterfaceInfo) : Bytes :=
  bytes "interface " ++ entry.name ++
    (if entry.addresses = [] then [] else bytes " " ++ (bytes ",").intercalate entry.addresses) ++
    bytes "\n"

/-- `CollectUpInterfaces`. -/
def collectUpInterfaces (ifs : Interfaces) : Except Status Bytes :=
  match ifs.ifaddrs with
  | none => .error ⟨.internal, "getifaddrs failed"⟩
  | some list =>
    let info := list.foldl collect []
    if info = [] then .ok (bytes "no interfaces are up")
    else .ok ((ifs.iterate info).flatMap interfaceLine)

/-- `output.resize` to `max_output_bytes`. -/
def truncateOutput (maxOutputBytes : ℕ) (output : Bytes) : Bytes :=
  if maxOutputBytes > 0 ∧ output.length > maxOutputBytes then output.take maxOutputBytes
  else output

/-- `ExecTask::Run`. -/
def runExec (ifs : Interfaces) (polls : Polls) (spec : ExecSpec) : TaskRun :=
  match execValidate spec with
  | some reason => .stopped .failed "UNIMPLEMENTED" reason
  | none =>
    match collectUpInterfaces ifs with
    | .error status => .stopped .failed (codeText status) status.message
    | .ok output =>
      if polls.stop 0 then .stopped .cancelled "CANCELLED" "operation cancelled"
      else
        let output := truncateOutput spec.maxOutputBytes output
        { outputs := (if output = [] then [] else [.execData ⟨output⟩]) ++
            [.eofExec ⟨0, "interfaces collected"⟩]
          state := .completed }

end Zurg.Tasks
