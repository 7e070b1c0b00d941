import Zurg.PcapOps.Synthetic

/-!
# Zurg.PcapOps.Sizes — how long synthetic packets are

`GenerateSynthetic` draws a length between 60 and `snaplen` (or 256), cuts it to
`payload_trim_bytes`, and takes what is left for the original length too.  So the bounds are in
order only if `snaplen` is at least 60, and the original length is right only if nothing is cut
(`packet_sizes_iff`).
-/

namespace Zurg.PcapOps

open Proto Grpc

/-- The upper bound of a drawn length. -/
def highBound (spec : PcapSpec) : ℕ := if spec.snaplen ≠ 0 then spec.snaplen else 256

/-- The length drawn for the `n`-th packet. -/
def drawnLength (env : CaptureEnv) (spec : PcapSpec) (n : ℕ) : ℤ :=
  env.uniform 60 (int32 (highBound spec)) n

/-- A distribution keeps to its bounds, if they are in order, and the clock does not go back. -/
structure EnvLawful (env : CaptureEnv) : Prop where
  uniform : ∀ low high n, low ≤ high → low ≤ env.uniform low high n ∧ env.uniform low high n ≤ high
  clock : ∀ n, env.clock 0 ≤ env.clock n
  clock_lt : ∀ n, env.clock n - env.clock 0 < 2 ^ 63

/-- The sizes of the `n`-th packet respect the spec and the length that was drawn. -/
structure SizesRight (env : CaptureEnv) (spec : PcapSpec) (n : ℕ) (pkt : PcapPacket) : Prop where
  snaplen : spec.snaplen > 0 → pkt.data.length ≤ spec.snaplen
  trim : spec.payloadTrimBytes > 0 → pkt.data.length ≤ spec.payloadTrimBytes
  origLen : (pkt.origLen : ℤ) = drawnLength env spec n
  data_le : pkt.data.length ≤ pkt.origLen

/-- The bounds are in order and fit into an `int`, and every packet delivered in any capture has the
right sizes. -/
structure PacketSizes (spec : PcapSpec) : Prop where
  bounds : 60 ≤ highBound spec ∧ highBound spec < 2 ^ 31
  sizes : ∀ env, EnvLawful env → ∀ script fuel s status stats,
    streamCapture env (Script.callbacks script) spec fuel {} = some (s, status, stats) →
    ∀ n pkt, s.delivered[n]? = some pkt → SizesRight env spec n pkt

variable {env : CaptureEnv} {spec : PcapSpec} {n : ℕ}

theorem int32_eq {n : ℕ} (h : n < 2 ^ 31) : int32 n = n :=
  Int.bmod_eq_of_le (by omega) (by omega)

theorem uint32_eq {n : ℕ} (h : n < 2 ^ 32) : uint32 n = n := by
  unfold uint32
  omega

/-! ## One packet -/

/-- The length a packet gets. -/
def trimmedLength (spec : PcapSpec) (drawn : ℕ) : ℕ :=
  if spec.payloadTrimBytes ≠ 0 ∧ spec.payloadTrimBytes < drawn then spec.payloadTrimBytes
  else drawn

theorem trimmedLength_le (spec : PcapSpec) (drawn : ℕ) : trimmedLength spec drawn ≤ drawn := by
  unfold trimmedLength
  split_ifs <;> omega

theorem trimmedLength_le_trim (h : spec.payloadTrimBytes > 0) (drawn : ℕ) :
    trimmedLength spec drawn ≤ spec.payloadTrimBytes := by
  unfold trimmedLength
  split_ifs <;> omega

theorem trimmedLength_eq {drawn : ℕ}
    (h : spec.payloadTrimBytes = 0 ∨ drawn ≤ spec.payloadTrimBytes) :
    trimmedLength spec drawn = drawn := by
  unfold trimmedLength
  rw [if_neg (by omega)]

/-- The two lengths of a packet are taken from one number. -/
theorem syntheticPacket_eq (env : CaptureEnv) (spec : PcapSpec) (n : ℕ) :
    ∃ len, len = (if spec.payloadTrimBytes ≠ 0 ∧
        spec.payloadTrimBytes < uint32 (drawnLength env spec n) then int32 spec.payloadTrimBytes
        else drawnLength env spec n) ∧
      (syntheticPacket env spec n).origLen = uint32 len ∧
      (syntheticPacket env spec n).data.length = len.toNat := by
  have hdrawn : drawnLength env spec n =
      env.uniform 60 (int32 (if spec.snaplen ≠ 0 then spec.snaplen else 256)) n := by
    unfold drawnLength highBound
    split_ifs <;> rfl
  rw [hdrawn]
  exact ⟨_, rfl, rfl, by simp only [syntheticPacket, List.length_map, List.length_range]⟩

/-- With bounds in order both lengths of a packet are the drawn one, trimmed. -/
theorem syntheticPacket_lengths (henv : EnvLawful env)
    (hbounds : 60 ≤ highBound spec ∧ highBound spec < 2 ^ 31) (n : ℕ) :
    ∃ drawn, drawnLength env spec n = (drawn : ℕ) ∧ drawn ≤ highBound spec ∧
      (syntheticPacket env spec n).origLen = trimmedLength spec drawn ∧
      (syntheticPacket env spec n).data.length = trimmedLength spec drawn := by
  have hhigh := int32_eq hbounds.2
  have hdraw := henv.uniform 60 (int32 (highBound spec)) n (by omega)
  obtain ⟨drawn, hdrawn⟩ := Int.eq_ofNat_of_zero_le (a := drawnLength env spec n) (by
    unfold drawnLength
    omega)
  have hle : drawn ≤ highBound spec := by
    unfold drawnLength at hdrawn
    omega
  obtain ⟨len, hlen, horig, hdata⟩ := syntheticPacket_eq env spec n
  have hshort := trimmedLength_le spec drawn
  have htrimmed : len = trimmedLength spec drawn := by
    rw [hlen, hdrawn, uint32_eq (by omega)]
    unfold trimmedLength
    split_ifs with htrim
    · exact int32_eq (by omega)
    · rfl
  refine ⟨drawn, hdrawn, hle, ?_, ?_⟩
  · rw [horig, htrimmed, uint32_eq (by omega)]
  · rw [hdata, htrimmed, Int.toNat_natCast]

/-- If nothing is cut off the sizes are right. -/
theorem sizesRight_of_uncut (henv : EnvLawful env)
    (hbounds : 60 ≤ highBound spec ∧ highBound spec < 2 ^ 31)
    (hcut : spec.payloadTrimBytes = 0 ∨ highBound spec ≤ spec.payloadTrimBytes) :
    SizesRight env spec n (syntheticPacket env spec n) := by
  obtain ⟨drawn, hdrawn, hle, horig, hdata⟩ := syntheticPacket_lengths henv hbounds n
  have huncut : trimmedLength spec drawn = drawn := trimmedLength_eq (by omega)
  refine ⟨fun hsnap => ?_, fun htrim => ?_, ?_, ?_⟩
  · have hhigh : highBound spec = spec.snaplen := if_pos (by omega)
    omega
  · rw [hdata]
    exact trimmedLength_le_trim htrim drawn
  · rw [horig, huncut, hdrawn]
  · rw [hdata, horig]

/-! ## The packets of a capture -/

variable {script : Script} {fuel k : ℕ} {s : Tape} {r : Captured Tape}

/-- The `n`-th packet delivered is the `n`-th packet made. -/
theorem exists_packets_of_captureLoop
    (h : captureLoop script.callbacks (syntheticTurn env spec) fuel k k s = some r)
    (hs : s.delivered = packets env spec k) : ∃ m, r.state.delivered = packets env spec m := by
  induction fuel generalizing k s with
  | zero => exact absurd h (by simp [captureLoop])
  | succ fuel ih =>
    rw [captureLoop_succ] at h
    by_cases hstop : (script.callbacks.shouldStop s).1 = true
    · rw [if_pos hstop] at h
      obtain rfl := Option.some.inj h
      exact ⟨k, hs⟩
    rw [if_neg hstop] at h
    cases hturn : syntheticTurn env spec k k with
    | done status =>
      simp only [hturn] at h
      obtain rfl := Option.some.inj h
      exact ⟨k, hs⟩
    | again =>
      unfold syntheticTurn at hturn
      split_ifs at hturn
    | packet pkt =>
      have hpkt : pkt = syntheticPacket env spec k := by
        unfold syntheticTurn at hturn
        split_ifs at hturn
        exact (Turn.packet.inj hturn).symm
      have hnext : s.delivered ++ [pkt] = packets env spec (k + 1) := by
        rw [packets_succ, hs, hpkt]
      simp only [hturn] at h
      split_ifs at h with hresult
      · obtain rfl := Option.some.inj h
        exact ⟨k + 1, hnext⟩
      · exact ih h hnext

/-- A deadline before the start lets no packet through. -/
theorem delivered_of_negative (henv : EnvLawful env) (hneg : extractDuration spec < 0)
    (h : captureLoop script.callbacks (syntheticTurn env spec) fuel 0 0 {} = some r) :
    r.state.delivered = [] := by
  have hclock := henv.clock 1
  have hclock' := henv.clock_lt 1
  have hsince : int64 (env.clock 1 - env.clock 0) = env.clock 1 - env.clock 0 :=
    InInt64.int64_eq ⟨by omega, hclock'⟩
  have hturn : syntheticTurn env spec 0 0 = .done .success :=
    syntheticTurn_of_late (by omega) (by rw [hsince]; omega)
  cases fuel with
  | zero => exact absurd h (by simp [captureLoop])
  | succ fuel =>
    rw [captureLoop_succ, hturn] at h
    split_ifs at h
    all_goals
      obtain rfl := Option.some.inj h
      rfl

theorem mem_packets {m : ℕ} {pkt : PcapPacket} (h : (packets env spec m)[n]? = some pkt) :
    pkt = syntheticPacket env spec n := by
  obtain ⟨hlt, heq⟩ := List.getElem?_eq_some_iff.mp h
  rw [← heq]
  simp [packets]

/-- Every number drawn is the greatest, and no time passes. -/
def greatestEnv : CaptureEnv where
  clock _ := 0
  systemClock _ := 0
  uniform _ high _ := high
  content _ _ := 0
  openLive _ _ _ := .error ""

theorem greatestEnv_lawful : EnvLawful greatestEnv :=
  ⟨fun _ _ _ h => ⟨h, Int.le_refl _⟩, fun _ => Int.le_refl _, fun n => Int.sub_self _ ▸ (by decide)⟩

/-- It is stopped after its first packet. -/
def firstPacketOnly : Script := ⟨fun k => k ≠ 0, fun _ => .success⟩

/-- Unless the deadline has passed there is a first packet. -/
theorem first_packet (hif : spec.ifName = "") (hpos : 0 ≤ extractDuration spec) :
    streamCapture greatestEnv firstPacketOnly.callbacks spec 2 {} =
      some ({ asked := 2, delivered := [syntheticPacket greatestEnv spec 0] },
        ⟨.cancelled, "capture cancelled"⟩, {}) := by
  have hturn : syntheticTurn greatestEnv spec 0 0 =
      .packet (syntheticPacket greatestEnv spec 0) := by
    have hnow : int64 (greatestEnv.clock (0 + 1) - greatestEnv.clock 0) = 0 := rfl
    rw [syntheticTurn, if_neg (by omega), if_neg (by omega)]
  rw [streamCapture_synthetic hif, captureLoop_succ, hturn]
  rfl

/-- **Packet sizes** are right exactly if the bounds are in order and representable and nothing can
be cut off, or no packet is ever made. -/
theorem packet_sizes_iff (hif : spec.ifName = "") : PacketSizes spec ↔
    (spec.snaplen = 0 ∨ 60 ≤ spec.snaplen ∧ spec.snaplen < 2 ^ 31) ∧
      (spec.payloadTrimBytes = 0 ∨ highBound spec ≤ spec.payloadTrimBytes ∨
        extractDuration spec < 0) := by
  have hbounds : 60 ≤ highBound spec ∧ highBound spec < 2 ^ 31 ↔
      spec.snaplen = 0 ∨ 60 ≤ spec.snaplen ∧ spec.snaplen < 2 ^ 31 := by
    unfold highBound
    split_ifs <;> omega
  rw [← hbounds]
  constructor
  · intro h
    refine ⟨h.bounds, ?_⟩
    by_contra hno
    obtain ⟨htrim, hcut, hpos⟩ : spec.payloadTrimBytes ≠ 0 ∧
        spec.payloadTrimBytes < highBound spec ∧ 0 ≤ extractDuration spec := by omega
    have hright := h.sizes _ greatestEnv_lawful _ _ _ _ _ (first_packet hif hpos) 0 _ rfl
    obtain ⟨drawn, hdrawn, -, horig, -⟩ :=
      syntheticPacket_lengths greatestEnv_lawful h.bounds 0
    have hgreatest : drawnLength greatestEnv spec 0 = highBound spec := by
      simp only [drawnLength, greatestEnv, int32_eq h.bounds.2]
    have hshort := trimmedLength_le_trim (Nat.pos_of_ne_zero htrim) drawn
    have hlen := hright.origLen
    omega
  · rintro ⟨hbounds', hcut⟩
    refine ⟨hbounds', fun env henv script fuel s status stats hrun n pkt hpkt => ?_⟩
    rw [streamCapture_synthetic hif] at hrun
    obtain ⟨r, hloop, hr⟩ := Option.map_eq_some_iff.mp hrun
    obtain ⟨rfl, -⟩ := Prod.mk.inj hr
    by_cases hneg : extractDuration spec < 0
    · rw [delivered_of_negative henv hneg hloop] at hpkt
      exact absurd hpkt (by simp)
    · obtain ⟨m, hm⟩ := exists_packets_of_captureLoop hloop rfl
      rw [hm] at hpkt
      rw [mem_packets hpkt]
      exact sizesRight_of_uncut henv hbounds' (by omega)

/-- The spec of the repository's own test of trimming, but for its limit. -/
theorem packet_sizes_iff_trimmed : PacketSizes { snaplen := 512, payloadTrimBytes := 512 } ∧
    ¬ PacketSizes { snaplen := 512, payloadTrimBytes := 4 } :=
  ⟨(packet_sizes_iff rfl).mpr (by decide),
    fun h => absurd ((packet_sizes_iff rfl).mp h) (by decide)⟩

/-- A trimmed packet says that it was as short before. -/
theorem packet_sizes_trimmed : ¬ ∀ spec : PcapSpec, spec.ifName = "" → spec.snaplen < 2 ^ 32 →
    spec.payloadTrimBytes < 2 ^ 32 → PacketSizes spec := by
  intro hall
  have h := hall { payloadTrimBytes := 4 } rfl (by decide) (by decide)
  have hright := h.sizes _ greatestEnv_lawful _ _ _ _ _ (first_packet rfl (by decide)) 0 _ rfl
  exact absurd hright.origLen (by decide)

end Zurg.PcapOps
