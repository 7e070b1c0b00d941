import Zurg.FileSystem
import Zurg.Grpc

/-!
# Zurg.PcapOps — `pcap_ops.cpp`

`StreamCapture` without an interface name makes packets up, with one it captures them by libpcap.
Both are the loop `captureLoop`, which asks `should_stop` first in every turn and then does what the
turn is: to end, to go on, or to deliver a packet.  The callbacks act on a state of the caller's.

Clocks, random numbers and libpcap are in `CaptureEnv`.  The direction of a capture is passed on to
libpcap only, and the answer is not looked at; `on_packet` and `stats` are given.
-/

namespace Zurg.PcapOps

open Proto Grpc

/-- `static_cast<uint32_t>`. -/
def uint32 (x : ℤ) : ℕ := (x % 2 ^ 32).toNat

/-- `static_cast<int>`. -/
def int32 (x : ℤ) : ℤ := x.bmod (2 ^ 32)

/-! ## libpcap -/

/-- The answer of `pcap_next_ex`. -/
inductive NextResult
  | timeout
  | eof
  | error (message : String)
  /-- The time stamp, the original length and the bytes captured. -/
  | packet (tvSec tvUsec : ℤ) (len : ℕ) (data : Bytes)

/-- An open capture handle. -/
structure Session where
  datalink : ℤ
  /-- The message of `pcap_compile` and of `pcap_setfilter` when they fail. -/
  compile : String → Option String
  setFilter : String → Option String
  /-- The answers of `pcap_next_ex`. -/
  next : ℕ → NextResult
  /-- What `pcap_stats` gives, unless it fails. -/
  stats : Option PcapStats

structure CaptureEnv where
  /-- The readings of `now_fn`, in nanoseconds. -/
  clock : ℕ → ℤ
  /-- The time of the `n`-th synthetic packet by the system clock, in nanoseconds. -/
  systemClock : ℕ → ℤ
  /-- The `n`-th number of a uniform distribution between two bounds.  For bounds out of order
  `std::uniform_int_distribution` is undefined, so that with a `snaplen` of 1 to 59, or of `2 ^ 31`
  and more, it is asked outside its domain. -/
  uniform : (low high : ℤ) → ℕ → ℤ
  /-- The bytes of the `n`-th synthetic packet. -/
  content : ℕ → ℕ → UInt8
  /-- `pcap_open_live`, with the text in `errbuf` when it fails. -/
  openLive : (ifName : String) → (snaplen : ℤ) → (promisc : Bool) → Except String Session

/-! ## The loop -/

/-- The callbacks of `StreamCapture`, on a state `σ`. -/
structure Callbacks (σ : Type) where
  onPacket : σ → PcapPacket → Status × σ
  shouldStop : σ → Bool × σ
  setDatalink : σ → ℤ → σ

/-- What a turn of the loop does, unless `should_stop`. -/
inductive Turn
  | done (status : Status)
  | again
  | packet (pkt : PcapPacket)

/-- How a capture ends: the caller's state, the status and `captured`. -/
structure Captured (σ : Type) where
  state : σ
  status : Status
  count : ℕ

variable {σ : Type}

/-- `while (true)`; `none` when the loop has not ended after `fuel` turns. -/
def captureLoop (cb : Callbacks σ) (source : (turn captured : ℕ) → Turn) :
    (fuel turn captured : ℕ) → σ → Option (Captured σ)
  | 0, _, _, _ => none
  | fuel + 1, turn, captured, s =>
    let (stop, s) := cb.shouldStop s
    if stop then some ⟨s, ⟨.cancelled, "capture cancelled"⟩, captured⟩
    else
      match source turn captured with
      | .done status => some ⟨s, status, captured⟩
      | .again => captureLoop cb source fuel (turn + 1) captured s
      | .packet pkt =>
        let (status, s) := cb.onPacket s pkt
        if !status.ok then some ⟨s, status, captured⟩
        else captureLoop cb source fuel (turn + 1) (captured + 1) s

/-! ## The two sources -/

/-- `ExtractDuration`, in nanoseconds. -/
def extractDuration (spec : PcapSpec) : ℤ :=
  match spec.duration with
  | none => 0
  | some d => int64 (d.seconds * 10 ^ 9 + d.nanos)

/-- The packet limit of `GenerateSynthetic`. -/
def syntheticLimit (spec : PcapSpec) : ℕ :=
  if spec.packetLimit = 0 ∧ extractDuration spec = 0 then 10 else spec.packetLimit

/-- The `n`-th packet of `GenerateSynthetic`. -/
def syntheticPacket (env : CaptureEnv) (spec : PcapSpec) (n : ℕ) : PcapPacket :=
  let len := env.uniform 60 (int32 (if spec.snaplen ≠ 0 then spec.snaplen else 256)) n
  let len :=
    if spec.payloadTrimBytes ≠ 0 ∧ spec.payloadTrimBytes < uint32 len then
      int32 spec.payloadTrimBytes
    else len
  let now := env.systemClock n
  { ts := { seconds := now.tdiv (10 ^ 9), nanos := now.tmod (10 ^ 9) }
    origLen := uint32 len
    data := (List.range len.toNat).map (env.content n) }

/-- A turn of `GenerateSynthetic`; its clock has been read once before the loop. -/
def syntheticTurn (env : CaptureEnv) (spec : PcapSpec) (turn produced : ℕ) : Turn :=
  if syntheticLimit spec ≠ 0 ∧ syntheticLimit spec ≤ produced then .done .success
  else if extractDuration spec ≠ 0 ∧
      extractDuration spec ≤ int64 (env.clock (turn + 1) - env.clock 0) then .done .success
  else .packet (syntheticPacket env spec produced)

/-- `GenerateSynthetic`; `DLT_EN10MB` is 1. -/
def generateSynthetic (env : CaptureEnv) (cb : Callbacks σ) (spec : PcapSpec) (fuel : ℕ) (s : σ) :
    Option (σ × Status × PcapStats) :=
  match captureLoop cb (syntheticTurn env spec) fuel 0 0 (cb.setDatalink s 1) with
  | none => none
  | some r => some (r.state, r.status, if r.status.ok then { received := r.count } else {})

/-- The packet made of what `pcap_next_ex` has given. -/
def livePacket (spec : PcapSpec) (tvSec tvUsec : ℤ) (len : ℕ) (data : Bytes) : PcapPacket :=
  let copyLen :=
    if spec.payloadTrimBytes > 0 ∧ spec.payloadTrimBytes < data.length then spec.payloadTrimBytes
    else data.length
  { ts := { seconds := tvSec, nanos := int32 (tvUsec * 1000) }
    origLen := len
    data := data.take copyLen }

/-- A turn of the live capture. -/
def liveTurn (env : CaptureEnv) (session : Session) (spec : PcapSpec) (turn captured : ℕ) : Turn :=
  if spec.packetLimit ≠ 0 ∧ spec.packetLimit ≤ captured then .done .success
  else if extractDuration spec ≠ 0 ∧
      int64 (env.clock 0 + extractDuration spec) ≤ env.clock (turn + 1) then .done .success
  else
    match session.next turn with
    | .timeout => .again
    | .eof => .done .success
    | .error msg => .done ⟨.unknown, if msg = "" then "pcap_next_ex failed" else msg⟩
    | .packet tvSec tvUsec len data => .packet (livePacket spec tvSec tvUsec len data)

/-- The filter of a live capture: the status with which the capture ends if it cannot be set. -/
def applyFilter (session : Session) (filter : PcapFilter) : Option Status :=
  match filter with
  | .notSet => none
  | .bpf expression =>
    if expression = "" then none
    else
      match session.compile expression with
      | some msg => some ⟨.invalidArgument, if msg = "" then "failed to compile filter" else msg⟩
      | none =>
        match session.setFilter expression with
        | some msg => some ⟨.failedPrecondition, if msg = "" then "failed to apply filter" else msg⟩
        | none => none
  | .structured => some ⟨.unimplemented, "structured filters are not implemented"⟩

/-- `StreamCapture`: the caller's state, the status and the stats. -/
def streamCapture (env : CaptureEnv) (cb : Callbacks σ) (spec : PcapSpec) (fuel : ℕ) (s : σ) :
    Option (σ × Status × PcapStats) :=
  if spec.ifName = "" then generateSynthetic env cb spec fuel s
  else
    let snaplen := if spec.snaplen > 0 then int32 spec.snaplen else 65535
    match env.openLive spec.ifName snaplen spec.promisc with
    | .error errbuf =>
      some (s, ⟨.failedPrecondition, if errbuf = "" then "pcap_open_live failed" else errbuf⟩, {})
    | .ok session =>
      match applyFilter session spec.filter with
      | some status => some (s, status, {})
      | none =>
        match captureLoop cb (liveTurn env session spec) fuel 0 0
            (cb.setDatalink s session.datalink) with
        | none => none
        | some r =>
          some (r.state, r.status,
            if r.status.ok then session.stats.getD { received := r.count } else {})

/-! ## Up to the loop, and the loop -/

/-- What a capture takes its packets from. -/
structure Source where
  datalink : ℤ
  turn : (turn captured : ℕ) → Turn
  /-- The stats of a capture that ends with OK. -/
  stats : ℕ → PcapStats

/-- What comes before the loop: a status to end with, or a source of packets. -/
def captureSource (env : CaptureEnv) (spec : PcapSpec) : Except Status Source :=
  if spec.ifName = "" then .ok ⟨1, syntheticTurn env spec, fun n => { received := n }⟩
  else
    let snaplen := if spec.snaplen > 0 then int32 spec.snaplen else 65535
    match env.openLive spec.ifName snaplen spec.promisc with
    | .error errbuf =>
      .error ⟨.failedPrecondition, if errbuf = "" then "pcap_open_live failed" else errbuf⟩
    | .ok session =>
      match applyFilter session spec.filter with
      | some status => .error status
      | none =>
        .ok ⟨session.datalink, liveTurn env session spec,
          fun n => session.stats.getD { received := n }⟩

/-- What `StreamCapture` gives back after its loop. -/
def Source.result (source : Source) (r : Captured σ) : σ × Status × PcapStats :=
  (r.state, r.status, if r.status.ok then source.stats r.count else {})

variable {env : CaptureEnv} {cb : Callbacks σ} {spec : PcapSpec} {fuel : ℕ} {s : σ}

theorem streamCapture_eq : streamCapture env cb spec fuel s =
    match captureSource env spec with
    | .error status => some (s, status, {})
    | .ok source =>
      (captureLoop cb source.turn fuel 0 0 (cb.setDatalink s source.datalink)).map
        source.result := by
  unfold streamCapture captureSource
  by_cases hif : spec.ifName = ""
  · simp only [if_pos hif, generateSynthetic]
    cases captureLoop cb (syntheticTurn env spec) fuel 0 0 (cb.setDatalink s 1) <;> rfl
  · simp only [if_neg hif]
    cases env.openLive spec.ifName (if spec.snaplen > 0 then int32 spec.snaplen else 65535)
        spec.promisc with
    | error errbuf => rfl
    | ok session =>
      dsimp only
      cases applyFilter session spec.filter with
      | some status => rfl
      | none =>
        dsimp only
        cases captureLoop cb (liveTurn env session spec) fuel 0 0
            (cb.setDatalink s session.datalink) <;> rfl

theorem applyFilter_not_ok {session : Session} {filter : PcapFilter} {status : Status}
    (h : applyFilter session filter = some status) : status.ok = false := by
  unfold applyFilter at h
  split at h
  · exact nomatch h
  · split_ifs at h
    split at h
    · obtain rfl := Option.some.inj h
      rfl
    · split at h
      · obtain rfl := Option.some.inj h
        rfl
      · exact nomatch h
  · obtain rfl := Option.some.inj h
    rfl

theorem captureSource_not_ok {status : Status} (h : captureSource env spec = .error status) :
    status.ok = false := by
  unfold captureSource at h
  split_ifs at h
  all_goals
    dsimp only at h
    split at h
    · obtain rfl := Except.error.inj h
      rfl
    · split at h
      · obtain rfl := Except.error.inj h
        exact applyFilter_not_ok ‹_›
      · exact nomatch h

variable {cb' : Callbacks σ} {source : (turn captured : ℕ) → Turn} {turn captured : ℕ}
  {r : Captured σ}

/-- **Invariants of a capture** that ends with OK; they need to hold from the first question on. -/
theorem captureLoop_invariant {I : σ → Prop} (hstop : ∀ s, I s → I (cb.shouldStop s).2)
    (hpkt : ∀ s pkt, I s → (cb.onPacket s pkt).1.ok = true → I (cb.onPacket s pkt).2)
    (h : captureLoop cb source fuel turn captured s = some r) (hok : r.status.ok = true)
    (hs : I (cb.shouldStop s).2) : I r.state := by
  fun_induction captureLoop cb source fuel turn captured s with
  | case1 => exact nomatch h
  | case2 fuel turn captured s t hcall =>
    obtain rfl := Option.some.inj h
    exact nomatch hok
  | case3 fuel turn captured s stop t hcall _ status hturn =>
    obtain rfl := Option.some.inj h
    simpa only [hcall] using hs
  | case4 fuel turn captured s stop t hcall _ hturn ih =>
    exact ih h (hstop t (by simpa only [hcall] using hs))
  | case5 fuel turn captured s stop t hcall _ pkt hturn status u hpacket hfail =>
    obtain rfl := Option.some.inj h
    simp [hok] at hfail
  | case6 fuel turn captured s stop t hcall _ pkt hturn status u hpacket hfail ih =>
    have ht : I t := by simpa only [hcall] using hs
    have hstatus : status.ok = true := by simpa using hfail
    have hu : I u := by
      simpa only [hpacket] using hpkt t pkt ht (by rw [hpacket]; exact hstatus)
    exact ih h (hstop u hu)

/-! ## Two captures -/

/-- `cb'` is `cb` until `seen` holds, and then ends the capture with CANCELLED. -/
structure StopsAt (seen : σ → Prop) (cb cb' : Callbacks σ) : Prop where
  seen_shouldStop : ∀ s, seen s → seen (cb.shouldStop s).2
  seen_onPacket : ∀ s pkt, seen s → seen (cb.onPacket s pkt).2
  stop : ∀ s, seen (cb.shouldStop s).2 → (cb'.shouldStop s).1 = true
  refuse : ∀ s pkt, seen (cb.onPacket s pkt).2 → (cb'.onPacket s pkt).1.code = .cancelled
  shouldStop_eq : ∀ s, ¬ seen (cb.shouldStop s).2 → cb'.shouldStop s = cb.shouldStop s
  onPacket_eq : ∀ s pkt, ¬ seen (cb.onPacket s pkt).2 → cb'.onPacket s pkt = cb.onPacket s pkt
  setDatalink_eq : ∀ s d, cb'.setDatalink s d = cb.setDatalink s d

theorem captureLoop_succ : captureLoop cb source (fuel + 1) turn captured s =
    if (cb.shouldStop s).1 then
      some ⟨(cb.shouldStop s).2, ⟨.cancelled, "capture cancelled"⟩, captured⟩
    else
      match source turn captured with
      | .done status => some ⟨(cb.shouldStop s).2, status, captured⟩
      | .again => captureLoop cb source fuel (turn + 1) captured (cb.shouldStop s).2
      | .packet pkt =>
        if !(cb.onPacket (cb.shouldStop s).2 pkt).1.ok then
          some ⟨(cb.onPacket (cb.shouldStop s).2 pkt).2,
            (cb.onPacket (cb.shouldStop s).2 pkt).1, captured⟩
        else
          captureLoop cb source fuel (turn + 1) (captured + 1)
            (cb.onPacket (cb.shouldStop s).2 pkt).2 := rfl

theorem captureLoop_of_stop (h : (cb.shouldStop s).1 = true) :
    captureLoop cb source (fuel + 1) turn captured s =
      some ⟨(cb.shouldStop s).2, ⟨.cancelled, "capture cancelled"⟩, captured⟩ := by
  rw [captureLoop_succ, if_pos h]

/-- **Comparison of two captures.**  If one ends with OK, the other ends in the same way or, from
`seen` on, with CANCELLED. -/
theorem captureLoop_stopsAt {seen : σ → Prop} (hcb : StopsAt seen cb cb')
    (h : captureLoop cb source fuel turn captured s = some r) (hok : r.status.ok = true) :
    ¬ seen r.state ∧ captureLoop cb' source fuel turn captured s = some r ∨
      seen r.state ∧ ∃ r', captureLoop cb' source fuel turn captured s = some r' ∧
        r'.status.code = .cancelled := by
  induction fuel generalizing turn captured s with
  | zero => exact nomatch h
  | succ fuel ih =>
    by_cases hseen : seen (cb.shouldStop s).2
    · have hend := captureLoop_invariant hcb.seen_shouldStop
        (fun s pkt hs _ => hcb.seen_onPacket s pkt hs) h hok hseen
      exact .inr ⟨hend, _, captureLoop_of_stop (hcb.stop s hseen), rfl⟩
    have hsame := hcb.shouldStop_eq s hseen
    rw [captureLoop_succ] at h
    rw [captureLoop_succ, hsame]
    split_ifs at h ⊢ with hstop
    · obtain rfl := Option.some.inj h
      exact nomatch hok
    cases hturn : source turn captured with
    | done status =>
      simp only [hturn] at h ⊢
      obtain rfl := Option.some.inj h
      exact .inl ⟨hseen, rfl⟩
    | again =>
      simp only [hturn] at h ⊢
      exact ih h
    | packet pkt =>
      simp only [hturn] at h ⊢
      split_ifs at h with hstatus
      · obtain rfl := Option.some.inj h
        simp [hok] at hstatus
      by_cases hseen' : seen (cb.onPacket (cb.shouldStop s).2 pkt).2
      · have hrefuse := hcb.refuse _ pkt hseen'
        have hend := captureLoop_invariant hcb.seen_shouldStop
          (fun s pkt hs _ => hcb.seen_onPacket s pkt hs) h hok (hcb.seen_shouldStop _ hseen')
        refine .inr ⟨hend, ⟨_, _, captured⟩, if_pos ?_, hrefuse⟩
        simp [Status.ok, hrefuse]
      · rw [hcb.onPacket_eq _ pkt hseen', if_neg hstatus]
        exact ih h

theorem streamCapture_stopsAt {seen : σ → Prop} (hcb : StopsAt seen cb cb') {s' : σ}
    {status : Status} {stats : PcapStats}
    (h : streamCapture env cb spec fuel s = some (s', status, stats)) (hok : status.ok = true) :
    ¬ seen s' ∧ streamCapture env cb' spec fuel s = some (s', status, stats) ∨
      seen s' ∧ ∃ r, streamCapture env cb' spec fuel s = some r ∧ r.2.1.code = .cancelled := by
  rw [streamCapture_eq] at h ⊢
  cases hsource : captureSource env spec with
  | error status' =>
    simp only [hsource] at h
    obtain ⟨rfl, -⟩ := Prod.mk.inj (Prod.mk.inj (Option.some.inj h)).2
    exact nomatch (captureSource_not_ok hsource).symm.trans hok
  | ok source =>
    simp only [hsource] at h ⊢
    obtain ⟨r, hloop, hr⟩ := Option.map_eq_some_iff.mp h
    obtain ⟨rfl, hrest⟩ := Prod.mk.inj hr
    obtain ⟨rfl, -⟩ := Prod.mk.inj hrest
    rw [hcb.setDatalink_eq]
    rcases captureLoop_stopsAt hcb hloop hok with ⟨hseen, hsame⟩ | ⟨hseen, r', hr', hcode⟩
    · refine .inl ⟨hseen, ?_⟩
      rw [hsame, ← hr]
      rfl
    · exact .inr ⟨hseen, source.result r', by rw [hr']; rfl, hcode⟩

end Zurg.PcapOps
