import Zurg.PcapOps.Live
import Zurg.PcapOps.Sizes

/-!
# Zurg.PcapOps.Generate — `GenerateCapture`

`GenerateCapture` collects the packets of a capture that nobody stops and no callback refuses.  Its
callback keeps less than a script does, which remembers its calls too; two captures whose callbacks
agree on what both keep go the same way (`streamCapture_follows`), so that the result is known from
the captures of scripts (`generate_capture`).
-/

namespace Zurg.PcapOps

open Proto Grpc

structure CaptureResult where
  packets : List PcapPacket := []
  stats : PcapStats := {}
  deriving DecidableEq, Repr

/-- The callback of `GenerateCapture`; `should_stop` is not given. -/
def consumer : Callbacks (List PcapPacket) where
  onPacket packets packet := (.success, packets ++ [packet])
  shouldStop packets := (false, packets)
  setDatalink packets _ := packets

/-- `GenerateCapture`, whose result may be null. -/
def generateCapture (env : CaptureEnv) (spec : PcapSpec) (result : Option CaptureResult)
    (fuel : ℕ) : Option (Status × Option CaptureResult) :=
  match result with
  | none => some (⟨.invalidArgument, "missing result"⟩, none)
  | some _ =>
    match streamCapture env consumer spec fuel [] with
    | none => none
    | some (packets, status, stats) => some (status, some ⟨packets, stats⟩)

/-! ## Callbacks that keep less -/

variable {σ τ : Type} {f : σ → τ} {cb : Callbacks σ} {cb' : Callbacks τ} {env : CaptureEnv}
  {spec : PcapSpec} {result : CaptureResult} {fuel turn captured k n : ℕ}
  {source : (turn captured : ℕ) → Turn} {s : σ}

/-- The callbacks answer alike, and `f` is what the second ones keep. -/
structure Follows (f : σ → τ) (cb : Callbacks σ) (cb' : Callbacks τ) : Prop where
  onPacket : ∀ s pkt, cb'.onPacket (f s) pkt = (cb.onPacket s pkt).map id f
  shouldStop : ∀ s, cb'.shouldStop (f s) = (cb.shouldStop s).map id f
  setDatalink : ∀ s d, cb'.setDatalink (f s) d = f (cb.setDatalink s d)

theorem captureLoop_follows (h : Follows f cb cb') :
    captureLoop cb' source fuel turn captured (f s) =
      (captureLoop cb source fuel turn captured s).map fun r => ⟨f r.state, r.status, r.count⟩ := by
  induction fuel generalizing turn captured s with
  | zero => rfl
  | succ fuel ih =>
    rw [captureLoop_succ, captureLoop_succ, h.shouldStop]
    simp only [Prod.map_fst, Prod.map_snd, id]
    split_ifs with hstop
    · rfl
    · cases source turn captured with
      | done status => rfl
      | again => exact ih
      | packet pkt =>
        simp only [h.onPacket, Prod.map_fst, Prod.map_snd, id]
        split_ifs with hfail
        · rfl
        · exact ih

theorem streamCapture_follows (h : Follows f cb cb') :
    streamCapture env cb' spec fuel (f s) =
      (streamCapture env cb spec fuel s).map (Prod.map f id) := by
  rw [streamCapture_eq, streamCapture_eq]
  cases captureSource env spec with
  | error status => rfl
  | ok source =>
    simp only [h.setDatalink, captureLoop_follows h, Option.map_map]
    rfl

/-! ## The result -/

/-- Nobody stops the capture, and no packet is refused. -/
def acceptAll : Script := ⟨fun _ => false, fun _ => .success⟩

theorem follows_acceptAll : Follows Tape.delivered acceptAll.callbacks consumer :=
  ⟨fun _ _ => rfl, fun _ => rfl, fun _ _ => rfl⟩

theorem generateCapture_eq : generateCapture env spec (some result) fuel =
    (streamCapture env acceptAll.callbacks spec fuel {}).map fun r =>
      (r.2.1, some ⟨r.1.delivered, r.2.2⟩) := by
  have hfollows : streamCapture env consumer spec fuel [] =
      (streamCapture env acceptAll.callbacks spec fuel {}).map (Prod.map Tape.delivered id) :=
    streamCapture_follows (s := {}) follows_acceptAll
  rw [generateCapture, hfollows]
  cases streamCapture env acceptAll.callbacks spec fuel {} <;> rfl

/-- The capture is complete before packet `n` and not before. -/
def FirstComplete (env : CaptureEnv) (spec : PcapSpec) (n : ℕ) : Prop :=
  Complete env spec n ∧ ∀ j < n, ¬ Complete env spec j

theorem ending_acceptAll : ending env spec acceptAll k =
    if Complete env spec k then some .complete else none := by
  unfold ending
  simp [acceptAll, Status.ok, Status.success]

theorem firstEnd_acceptAll (h : FirstComplete env spec n) :
    FirstEnd env spec acceptAll n .complete := by
  refine ⟨?_, fun j hj => ?_⟩
  · rw [ending_acceptAll, if_pos h.1]
  · rw [ending_acceptAll, if_neg (h.2 j hj)]

theorem exists_firstComplete {limit : ℕ} (h : limit ∈ effectiveLimit spec) :
    ∃ n ≤ limit, FirstComplete env spec n := by
  have hcomplete : ∃ n, Complete env spec n := ⟨limit, .inl ⟨limit, h, Nat.le_refl limit⟩⟩
  exact ⟨Nat.find hcomplete, Nat.find_min' hcomplete (.inl ⟨limit, h, Nat.le_refl limit⟩),
    Nat.find_spec hcomplete, fun j hj => Nat.find_min hcomplete hj⟩

/-- No callback of `GenerateCapture` ends a capture. -/
theorem answers_acceptAll {session : Session} {e : LiveEnding}
    (h : liveEnding env session spec acceptAll k = some e) : e.answers k = k := by
  cases e with
  | stopped | complete | failed message => rfl
  | refused status =>
    have hok : (acceptAll.results (capturedBy session spec k).length).ok = true := rfl
    have hstop : ¬ acceptAll.stop k = true := by simp [acceptAll]
    simp only [liveEnding, hok, if_neg hstop, if_true] at h
    split at h
    · exact absurd h (by simp)
    · split at h <;> exact absurd h (by simp)

/-- A packet is not longer than the upper bound. -/
theorem length_of_mem_packets (henv : EnvLawful env)
    (hbounds : 60 ≤ highBound spec ∧ highBound spec < 2 ^ 31) {pkt : PcapPacket}
    (h : pkt ∈ packets env spec n) :
    pkt.origLen ≤ highBound spec ∧ pkt.data.length = pkt.origLen := by
  obtain ⟨m, hm⟩ := List.mem_iff_getElem?.mp h
  rw [mem_packets hm]
  obtain ⟨drawn, -, hle, horig, hdata⟩ := syntheticPacket_lengths henv hbounds m
  have hshort := trimmedLength_le spec drawn
  exact ⟨by omega, by omega⟩

/-- **What `GenerateCapture` collects**, whatever the result held before.  A synthetic capture whose
lengths can be drawn is all packets before the first complete iteration, counted by the stats, and
none is longer than the upper bound; a live one is all packets until the first iteration that ends
it.  If what comes before the loop fails, the result is empty. -/
theorem generate_capture (env : CaptureEnv) (spec : PcapSpec) (result : CaptureResult) :
    (spec.ifName = "" → 60 ≤ highBound spec ∧ highBound spec < 2 ^ 31 →
      InInt64 (totalNanos spec) →
      (∀ n, FirstComplete env spec n → ∀ fuel, n < fuel →
        generateCapture env spec (some result) fuel =
          some (.success, some ⟨packets env spec n, { received := n }⟩)) ∧
      (EnvLawful env → ∀ n, ∀ pkt ∈ packets env spec n,
        pkt.origLen ≤ highBound spec ∧ pkt.data.length = pkt.origLen) ∧
      (∀ n, (∀ j < n, ¬ Complete env spec j) →
        generateCapture env spec (some result) n = none) ∧
      ∀ limit ∈ effectiveLimit spec, ∃ n ≤ limit, FirstComplete env spec n) ∧
    (∀ status, captureSource env spec = .error status →
      ∀ fuel, generateCapture env spec (some result) fuel = some (status, some {})) ∧
    ∀ session, Opened env spec session → DeadlineFits env spec →
      (∀ n e, LiveEnd env session spec acceptAll n e → ∀ fuel, n < fuel →
        generateCapture env spec (some result) fuel =
          some (e.status, some ⟨capturedBy session spec n,
            liveStats session e.status (capturedBy session spec n).length⟩)) ∧
      ∀ n, (∀ j < n, liveEnding env session spec acceptAll j = none) →
        generateCapture env spec (some result) n = none := by
  refine ⟨fun hif hbounds hd => ⟨fun n hn fuel hfuel => ?_, fun henv n pkt hpkt =>
    length_of_mem_packets henv hbounds hpkt, fun n hn => ?_, fun limit hlimit =>
    exists_firstComplete hlimit⟩, fun status herror fuel => ?_, fun session ho hd =>
    ⟨fun n e hn fuel hfuel => ?_, fun n hn => ?_⟩⟩
  · rw [generateCapture_eq, streamCapture_of_firstEnd hif hd (firstEnd_acceptAll hn) hfuel]
    rfl
  · rw [generateCapture_eq, streamCapture_of_going hif hd fun j hj => by
      rw [ending_acceptAll, if_neg (hn j hj)]]
    rfl
  · rw [generateCapture_eq, streamCapture_eq, herror]
    rfl
  · rw [generateCapture_eq, streamCapture_of_liveEnd ho hd hn hfuel, answers_acceptAll hn.1]
    rfl
  · rw [generateCapture_eq, streamCapture_of_waiting ho hd hn]
    rfl

/-- Three packets of four bytes, in a result that was in use. -/
theorem generate_capture_threePackets : ∃ packets : List PcapPacket,
    generateCapture secondsEnv { packetLimit := 3, payloadTrimBytes := 4, snaplen := 512 }
      (some ⟨[⟨⟨0, 0⟩, 1, [0]⟩], { received := 1 }⟩) 9 =
        some (.success, some ⟨packets, { received := 3 }⟩) ∧
    packets.length = 3 := by
  have hfirst : FirstComplete secondsEnv
      { packetLimit := 3, payloadTrimBytes := 4, snaplen := 512 } 3 := ⟨by decide, by decide⟩
  have hsynthetic := (generate_capture secondsEnv
    { packetLimit := 3, payloadTrimBytes := 4, snaplen := 512 }
    ⟨[⟨⟨0, 0⟩, 1, [0]⟩], { received := 1 }⟩).1 rfl (by decide) (by decide)
  exact ⟨_, hsynthetic.1 3 hfirst 9 (by decide), length_packets⟩

end Zurg.PcapOps
