import Zurg.Lib.Codec
import Zurg.PcapOps

/-!
# Zurg.Tasks.PcapFile — the classic pcap format

`WriteGlobalHeader` and `WriteRecord` of `pcap_task.cpp` write their structures as they lie in
memory, without padding and in the byte order of the host.  `decodeFile` reads the format: a global
header, and then records until the end of the file.
-/

namespace Zurg.Tasks

open Lib Proto PcapOps

variable (e : Endian)

/-! ## Encoding -/

/-- The `Header` of `WriteGlobalHeader`. -/
def encodeHeader (snaplen network : ℕ) : Bytes :=
  e.encode 4 0xa1b2c3d4 ++ e.encode 2 2 ++ e.encode 2 4 ++ e.encode 4 0 ++ e.encode 4 0 ++
    e.encode 4 snaplen ++ e.encode 4 network

/-- The `RecordHeader` of `WriteRecord`. -/
def encodeRecordHeader (pkt : PcapPacket) : Bytes :=
  e.encode 4 (uint32 pkt.ts.seconds) ++ e.encode 4 (uint32 (pkt.ts.nanos.tdiv 1000)) ++
    e.encode 4 (uint32 pkt.data.length) ++ e.encode 4 (uint32 pkt.origLen)

/-- What `WriteRecord` writes. -/
def encodePacket (pkt : PcapPacket) : Bytes := encodeRecordHeader e pkt ++ pkt.data

/-! ## Decoding -/

structure GlobalHeader where
  magic : ℕ
  versionMajor : ℕ
  versionMinor : ℕ
  thiszone : ℕ
  sigfigs : ℕ
  snaplen : ℕ
  network : ℕ
  deriving DecidableEq, Repr

structure Record where
  tsSec : ℕ
  tsUsec : ℕ
  origLen : ℕ
  data : Bytes
  deriving DecidableEq, Repr

def decodeHeader : Decoder GlobalHeader := fun input => do
  let (magic, input) ← e.decode 4 input
  let (versionMajor, input) ← e.decode 2 input
  let (versionMinor, input) ← e.decode 2 input
  let (thiszone, input) ← e.decode 4 input
  let (sigfigs, input) ← e.decode 4 input
  let (snaplen, input) ← e.decode 4 input
  let (network, input) ← e.decode 4 input
  some (⟨magic, versionMajor, versionMinor, thiszone, sigfigs, snaplen, network⟩, input)

def decodeRecord : Decoder Record := fun input => do
  let (tsSec, input) ← e.decode 4 input
  let (tsUsec, input) ← e.decode 4 input
  let (inclLen, input) ← e.decode 4 input
  let (origLen, input) ← e.decode 4 input
  let (data, input) ← takeBytes inclLen input
  some (⟨tsSec, tsUsec, origLen, data⟩, input)

/-- A file is its global header and its records, and nothing else. -/
def decodeFile (input : Bytes) : Option (GlobalHeader × List Record) := do
  let (header, input) ← decodeHeader e input
  let records ← decodeAll (decodeRecord e) input
  some (header, records)

/-! ## Round trip -/

/-- The header the agent writes. -/
def agentHeader (snaplen network : ℕ) : GlobalHeader :=
  { magic := 0xa1b2c3d4, versionMajor := 2, versionMinor := 4, thiszone := 0, sigfigs := 0
    snaplen := snaplen, network := network }

/-- A packet as the format keeps it, with its time in microseconds. -/
def recordOf (pkt : PcapPacket) : Record :=
  { tsSec := pkt.ts.seconds.toNat, tsUsec := pkt.ts.nanos.toNat / 1000
    origLen := pkt.origLen, data := pkt.data }

/-- What fits into a record. -/
structure Recordable (pkt : PcapPacket) : Prop where
  seconds : 0 ≤ pkt.ts.seconds ∧ pkt.ts.seconds < 2 ^ 32
  nanos : 0 ≤ pkt.ts.nanos ∧ pkt.ts.nanos < 10 ^ 9
  length : pkt.data.length < 2 ^ 32
  origLen : pkt.origLen < 2 ^ 32

instance (pkt : PcapPacket) : Decidable (Recordable pkt) :=
  decidable_of_iff ((0 ≤ pkt.ts.seconds ∧ pkt.ts.seconds < 2 ^ 32) ∧
      (0 ≤ pkt.ts.nanos ∧ pkt.ts.nanos < 10 ^ 9) ∧ pkt.data.length < 2 ^ 32 ∧ pkt.origLen < 2 ^ 32)
    ⟨fun h => ⟨h.1, h.2.1, h.2.2.1, h.2.2.2⟩, fun h => ⟨h.seconds, h.nanos, h.length, h.origLen⟩⟩

variable {e} {snaplen network : ℕ} {pkt : PcapPacket}

theorem uint32_lt (x : ℤ) : uint32 x < 256 ^ 4 := by
  unfold uint32
  omega

theorem uint32_of_lt {n : ℕ} (h : n < 2 ^ 32) : uint32 n = n := by
  unfold uint32
  omega

theorem length_encodeHeader : (encodeHeader e snaplen network).length = 24 := by
  simp only [encodeHeader, List.length_append, Endian.length_encode]

theorem decode_encode {width n : ℕ} {rest : Bytes} (h : n < 256 ^ width) :
    e.decode width (e.encode width n ++ rest) = some (n, rest) := e.decodes width n rest h

theorem decodeHeader_append (hs : snaplen < 2 ^ 32) (hn : network < 2 ^ 32) (rest : Bytes) :
    decodeHeader e (encodeHeader e snaplen network ++ rest) =
      some (agentHeader snaplen network, rest) := by
  simp only [decodeHeader, encodeHeader, List.append_assoc]
  simp (disch := omega) only [decode_encode, Option.bind_eq_bind, Option.bind_some]
  rfl

theorem encodePacket_ne_nil (pkt : PcapPacket) : encodePacket e pkt ≠ [] := by
  refine List.length_pos_iff.mp ?_
  simp only [encodePacket, encodeRecordHeader, List.length_append, Endian.length_encode]
  omega

theorem decodes_packet : Decodes (decodeRecord e) (encodePacket e) recordOf Recordable := by
  intro pkt rest h
  have hlen : uint32 pkt.data.length = pkt.data.length := uint32_of_lt h.length
  have horig : uint32 pkt.origLen = pkt.origLen := uint32_of_lt h.origLen
  have hsec : uint32 pkt.ts.seconds = pkt.ts.seconds.toNat := by
    have := h.seconds
    unfold uint32
    omega
  have husec : uint32 (pkt.ts.nanos.tdiv 1000) = pkt.ts.nanos.toNat / 1000 := by
    have := h.nanos
    rw [Int.tdiv_eq_ediv_of_nonneg this.1]
    unfold uint32
    omega
  simp only [decodeRecord, encodePacket, encodeRecordHeader, List.append_assoc]
  simp (disch := exact uint32_lt _) only [decode_encode, Option.bind_eq_bind, Option.bind_some]
  rw [takeBytes_append hlen.symm, Option.bind_some, hsec, husec, horig]
  rfl

/-- **Round trip.**  What the agent writes is decoded as its header and its packets. -/
theorem decodeFile_encode (hs : snaplen < 2 ^ 32) (hn : network < 2 ^ 32) {pkts : List PcapPacket}
    (hp : ∀ p ∈ pkts, Recordable p) :
    decodeFile e (encodeHeader e snaplen network ++ pkts.flatMap (encodePacket e)) =
      some (agentHeader snaplen network, pkts.map recordOf) := by
  rw [decodeFile, decodeHeader_append hs hn, Option.bind_eq_bind, Option.bind_some]
  dsimp only
  rw [decodeAll_flatMap decodes_packet encodePacket_ne_nil hp]
  rfl

/-! ## Lengths -/

theorem length_of_decodeHeader {input rest : Bytes} {header : GlobalHeader}
    (h : decodeHeader e input = some (header, rest)) : input.length = 24 + rest.length := by
  simp only [decodeHeader, Option.bind_eq_bind, Option.bind_eq_some_iff, Option.some.injEq,
    Prod.exists, Prod.mk.injEq] at h
  obtain ⟨_, _, h₁, _, _, h₂, _, _, h₃, _, _, h₄, _, _, h₅, _, _, h₆, _, _, h₇, -, rfl⟩ := h
  have := Endian.length_of_decode e h₁
  have := Endian.length_of_decode e h₂
  have := Endian.length_of_decode e h₃
  have := Endian.length_of_decode e h₄
  have := Endian.length_of_decode e h₅
  have := Endian.length_of_decode e h₆
  have := Endian.length_of_decode e h₇
  omega

theorem length_of_decodeRecord {input rest : Bytes} {record : Record}
    (h : decodeRecord e input = some (record, rest)) :
    input.length = 16 + record.data.length + rest.length := by
  simp only [decodeRecord, Option.bind_eq_bind, Option.bind_eq_some_iff, Option.some.injEq,
    Prod.exists, Prod.mk.injEq] at h
  obtain ⟨_, _, h₁, _, _, h₂, _, _, h₃, _, _, h₄, data, _, h₅, rfl, rfl⟩ := h
  have := Endian.length_of_decode e h₁
  have := Endian.length_of_decode e h₂
  have := Endian.length_of_decode e h₃
  have := Endian.length_of_decode e h₄
  have := length_of_takeBytes h₅
  have : data.length = _ := length_taken h₅
  dsimp only
  omega

/-- What is decoded determines how long the file is. -/
theorem length_of_decodeFile {input : Bytes} {header : GlobalHeader} {records : List Record}
    (h : decodeFile e input = some (header, records)) :
    input.length = 24 + (records.map fun record => 16 + record.data.length).sum := by
  simp only [decodeFile, Option.bind_eq_bind, Option.bind_eq_some_iff, Option.some.injEq,
    Prod.exists, Prod.mk.injEq] at h
  obtain ⟨_, rest, hheader, _, hrecords, -, rfl⟩ := h
  have hrest := length_of_decodeAll (fun _ _ _ => length_of_decodeRecord) hrecords
  have := length_of_decodeHeader hheader
  omega

end Zurg.Tasks
