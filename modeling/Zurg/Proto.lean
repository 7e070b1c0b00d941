import Mathlib.Data.Int.Notation
import Mathlib.Data.Nat.Notation

/-!
# Zurg.Proto — the messages of the control protocol (`third_party/os.proto`)

Unsigned and signed integer fields are `ℕ` and `ℤ`; `op_id` is the key of the agent's task table
and keeps its width.  `bytes` are lists of bytes.  The `OpLog` and `OpProgress` messages, which the
agent never sends, are left out.
-/

namespace Zurg.Proto

abbrev Bytes := List UInt8

abbrev OpId := UInt32

structure Timestamp where
  seconds : ℤ
  nanos : ℤ
  deriving DecidableEq, Repr

structure Duration where
  seconds : ℤ
  nanos : ℤ
  deriving DecidableEq, Repr

/-! ## Server to agent -/

structure LogFilterSpec where
  startTime : Option Timestamp := none
  endTime : Option Timestamp := none
  levelIn : List String := []
  grepContains : String := ""
  compress : Bool := false
  maxOutputBytes : ℕ := 0
  deriving DecidableEq, Repr

/-- The `filter` oneof of `PcapSpec`; what a structured filter says is never read. -/
inductive PcapFilter
  | notSet
  | bpf (expression : String)
  | structured
  deriving DecidableEq, Repr

structure PcapSpec where
  ifName : String := ""
  duration : Option Duration := none
  packetLimit : ℕ := 0
  snaplen : ℕ := 0
  payloadTrimBytes : ℕ := 0
  filter : PcapFilter := .notSet
  promisc : Bool := false
  deriving DecidableEq, Repr

structure ExecSpec where
  cmd : String := ""
  maxOutputBytes : ℕ := 0
  deriving DecidableEq, Repr

/-- The `spec` oneof of `StartOp`. -/
inductive OpSpec
  | logFilter (spec : LogFilterSpec)
  | pcap (spec : PcapSpec)
  | exec (spec : ExecSpec)
  deriving DecidableEq, Repr

structure StartOp where
  opId : OpId
  spec : Option OpSpec
  deriving DecidableEq, Repr

structure Heartbeat where
  agentId : String
  seq : ℕ
  deriving DecidableEq, Repr

/-- The `msg` oneof of `ServerToAgent`; `notSet` is the empty message. -/
inductive ServerToAgent
  | start (op : StartOp)
  | cancel (opId : OpId)
  | shutdown (drain : Bool)
  | ping (hb : Heartbeat)
  | notSet
  deriving DecidableEq, Repr

/-! ## Agent to server -/

structure Capability where
  ifNames : List String
  supportsShell : Bool
  supportsPromisc : Bool
  deriving DecidableEq, Repr

structure AgentHello where
  agentId : String
  version : String
  platform : String
  caps : Capability
  deriving DecidableEq, Repr

structure OpAck where
  opId : OpId
  accepted : Bool
  reason : String
  deriving DecidableEq, Repr

structure LogChunk where
  offset : ℤ
  data : Bytes
  deriving DecidableEq, Repr

structure PcapPacket where
  ts : Timestamp
  origLen : ℕ
  data : Bytes
  deriving DecidableEq, Repr

/-- `ExecChunk`; the agent only fills the `stdout` side of its oneof. -/
structure ExecChunk where
  stdout : Bytes
  deriving DecidableEq, Repr

inductive OpDataPayload
  | logChunk (chunk : LogChunk)
  | pcapPacket (pkt : PcapPacket)
  | execChunk (chunk : ExecChunk)
  deriving DecidableEq, Repr

structure LogFilterEof where
  totalSize : ℤ := 0
  totalLines : ℤ := 0
  tempFilePath : String := ""
  sourceFiles : List String := []
  deriving DecidableEq, Repr

structure PcapStats where
  received : ℕ := 0
  dropped : ℕ := 0
  ifDropped : ℕ := 0
  deriving DecidableEq, Repr

structure ExecExit where
  code : ℤ
  note : String
  deriving DecidableEq, Repr

inductive OpEofTrailer
  | log (eof : LogFilterEof)
  | pcap (stats : PcapStats)
  | exec (exit : ExecExit)
  deriving DecidableEq, Repr

/-- The `msg` oneof of `AgentToServer`. -/
inductive AgentToServer
  | hello (m : AgentHello)
  | pong (m : Heartbeat)
  | ack (m : OpAck)
  | data (opId : OpId) (payload : OpDataPayload)
  | eof (opId : OpId) (trailer : OpEofTrailer)
  | error (opId : OpId) (code message : String)
  deriving DecidableEq, Repr

namespace AgentToServer

def isHello : AgentToServer → Bool
  | hello _ => true
  | _ => false

def isData : AgentToServer → Bool
  | data _ _ => true
  | _ => false

def isEof : AgentToServer → Bool
  | eof _ _ => true
  | _ => false

/-- The messages that end an operation: `OpEof` and `OpError`. -/
def isTerminal : AgentToServer → Bool
  | eof _ _ => true
  | error _ _ _ => true
  | _ => false

/-- An `OpAck` that accepts. -/
def isAccept : AgentToServer → Bool
  | ack m => m.accepted
  | _ => false

end AgentToServer

end Zurg.Proto
