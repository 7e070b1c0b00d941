import Zurg.LoggerManager
import Zurg.LogOps.Correct
import Zurg.LogOps.Rotations
import Zurg.LogOps.RoundTrip

/-!
# Zurg.LogOps.Written — the agent's own records in a log filter

What the agent's loggers write to the base log, in spdlog's default layout, and whether
`StreamLogFilter` delivers it when it is asked for by the level name of the protocol.  spdlog spells
one level differently, so that its records are not found by that name (`finds_own_records_iff`).
-/

namespace Zurg.LogOps

open Lib Proto Grpc TempFile
open Control (LogOptions)
open Logging (Level)

/-! ## Records -/

/-- What spdlog's `%l` writes. -/
def levelText : Level → String
  | .trace => "trace"
  | .debug => "debug"
  | .info => "info"
  | .warn => "warning"
  | .err => "error"
  | .critical => "critical"
  | .off => "off"

/-- The name that a level has in the protocol (`LogLine.level`). -/
def protocolName : Level → Option String
  | .debug => some "DEBUG"
  | .info => some "INFO"
  | .warn => some "WARN"
  | .err => some "ERROR"
  | _ => none

/-- A record of a level that the protocol names; the clock has 64 bits. -/
structure LogRecord where
  /-- In nanoseconds since the epoch. -/
  time : ℕ
  level : Level
  name : Bytes
  message : Bytes
  time_lt : time < 2 ^ 63
  named : (protocolName level).isSome
  name_ne : name ≠ []
  name_open : byte '[' ∉ name
  name_close : byte ']' ∉ name
  message_line : byte '\n' ∉ message

namespace LogRecord

variable (r : LogRecord)

def seconds : ℕ := r.time / 10 ^ 9

def millis : ℕ := r.time / 10 ^ 6 % 1000

/-- Its time as far as it is written. -/
def timestamp : Timestamp := { seconds := r.seconds, nanos := r.millis * 10 ^ 6 }

def date : Date := epoch.after (r.seconds / 86400)

/-- What `%e` writes. -/
def millisDigits : List (Fin 10) :=
  [Fin.ofNat 10 (r.millis / 100), Fin.ofNat 10 (r.millis / 10), Fin.ofNat 10 r.millis]

/-- `[%Y-%m-%d %H:%M:%S.%e] [%n] [%l] %v`, in UTC. -/
def render : Bytes :=
  layout (renderTime r.date (.ofSeconds r.seconds) (some r.millisDigits)) r.name
    (bytes (levelText r.level)) r.message

end LogRecord

/-- The line, with its newline, stands in the content at the beginning of a line. -/
def HoldsLine (content line : Bytes) : Prop :=
  ∃ pre post, content = pre ++ (line ++ byte '\n' :: post) ∧
    (pre = [] ∨ pre.getLast? = some (byte '\n'))

/-- The filter names the level, in any case. -/
def Listed (spec : LogFilterSpec) (name : String) : Prop :=
  ∃ lvl ∈ spec.levelIn, toLower (bytes lvl) = toLower (bytes name)

/-- The filter asks for the record, by the name its level has in the protocol. -/
structure AsksFor (spec : LogFilterSpec) (r : LogRecord) : Prop where
  level : ∃ name, protocolName r.level = some name ∧ Listed spec name
  start : ∀ start, spec.startTime = some start → Timestamp.Le start r.timestamp
  stop : ∀ stop, spec.endTime = some stop → Timestamp.Le r.timestamp stop
  contains : bytes spec.grepContains <:+: r.message

/-- The filter asks for levels, none of which is that of the record. -/
structure AsksForOthers (spec : LogFilterSpec) (r : LogRecord) : Prop where
  ne_nil : spec.levelIn ≠ []
  others : ∀ lvl ∈ spec.levelIn, ∃ level name, level ≠ r.level ∧
    protocolName level = some name ∧ toLower (bytes lvl) = toLower (bytes name)

/-- The file that the base path leads to. -/
def BaseLog (fs : FileSystem) (opts : LogOptions) (file : File) : Prop :=
  ∃ root base c, makeRoot fs opts.logRoot = some root ∧
    resolvePath fs root opts.basePath = some base ∧ fs.weaklyCanonical base = some c ∧
    fs.existsAt c = .ok true ∧ fs.openRead c = some file

variable {fs : FileSystem} {root : Root} {opts : LogOptions} {spec : LogFilterSpec}
  {content line rest : Bytes} {ls : List Bytes}

/-! ## Lines that are held -/

theorem newline_notMem_of_mem_lines (h : line ∈ lines content) : byte '\n' ∉ line := by
  rw [← getlines_eq_lines] at h
  fun_induction getlines content with
  | case1 => exact absurd h List.not_mem_nil
  | case2 rest first rest' hget ih =>
    rcases List.mem_cons.mp h with rfl | h
    · unfold getline at hget
      split_ifs at hget
      obtain ⟨rfl, -⟩ := Prod.mk.inj (Option.some.inj hget)
      intro hm
      simpa using List.all_eq_true.mp List.all_takeWhile _ hm
    · exact ih h

theorem lines_append (pre rest : Bytes) :
    lines (pre ++ byte '\n' :: rest) = pre.splitOn (byte '\n') ++ lines rest := by
  have hne := List.splitOn_ne_nil (byte '\n') rest
  unfold lines
  rw [List.splitOn_append_cons_self]
  simp only [List.getLast?_append_of_ne_nil _ hne, List.dropLast_append_of_ne_nil hne]
  split_ifs <;> rfl

/-- What stands at the beginning of a line, up to the next newline, is one. -/
theorem mem_lines_of_holds (hline : byte '\n' ∉ line)
    (h : HoldsLine content (line ++ rest)) (hrest : rest = [] ∨ rest.head? = some (byte '\n')) :
    line ∈ lines content := by
  obtain ⟨pre, post, rfl, hpre⟩ := h
  have hnext : ∃ post', line ++ rest ++ byte '\n' :: post = line ++ byte '\n' :: post' := by
    rcases hrest with rfl | hhead
    · exact ⟨post, by rw [List.append_nil]⟩
    · obtain ⟨tail, rfl⟩ := List.head?_eq_some_iff.mp hhead
      exact ⟨tail ++ byte '\n' :: post, by simp⟩
  obtain ⟨post', hnext⟩ := hnext
  rw [hnext]
  rcases hpre with rfl | hlast
  · rw [List.nil_append, lines_cons hline]
    exact List.mem_cons_self
  · obtain ⟨init, rfl⟩ := List.getLast?_eq_some_iff.mp hlast
    rw [List.append_assoc, List.singleton_append, lines_append, lines_cons hline]
    exact List.mem_append_right _ List.mem_cons_self

theorem lines_render (h : ∀ line ∈ ls, byte '\n' ∉ line) : lines (render ls) = ls := by
  induction ls with
  | nil => rfl
  | cons line ls ih =>
    have hrest := ih fun line' hm => h line' (List.mem_cons_of_mem _ hm)
    rw [← List.singleton_append, render_append, render_singleton, List.append_assoc,
      List.singleton_append, lines_cons (h line List.mem_cons_self), hrest]
    rfl

theorem getLast?_render (ls : List Bytes) :
    render ls = [] ∨ (render ls).getLast? = some (byte '\n') := by
  rcases List.eq_nil_or_concat ls with rfl | ⟨init, last, rfl⟩
  · exact .inl rfl
  · refine .inr ?_
    rw [List.concat_eq_append, render_append, render_singleton, ← List.append_assoc,
      List.getLast?_concat]

theorem holdsLine_render (h : line ∈ ls) : HoldsLine (render ls) line := by
  obtain ⟨before, after, rfl⟩ := List.append_of_mem h
  refine ⟨render before, render after, ?_, getLast?_render before⟩
  rw [render_append, ← List.singleton_append, render_append, render_singleton, List.append_assoc,
    List.singleton_append]

/-! ## What the parser reads of a record -/

theorem year_date (r : LogRecord) : 1970 ≤ r.date.year ∧ r.date.year ≤ 9999 := by
  refine ⟨Date.year_le_after epoch _, ?_⟩
  have hcount : dayCount r.date = r.seconds / 86400 := dayCount_after _
  have htime := r.time_lt
  have hseconds : r.seconds < 10 ^ 10 := by
    unfold LogRecord.seconds
    omega
  have hday := r.date.day_pos
  unfold dayCount daysBeforeYear at hcount
  omega

theorem fractionNanos_millisDigits (r : LogRecord) :
    fractionNanos (some r.millisDigits) = r.millis * 10 ^ 6 := by
  have hlt : r.millis < 1000 := Nat.mod_lt _ (by omega)
  simp only [fractionNanos, LogRecord.millisDigits, fractionValue, List.length_cons,
    List.length_nil, Fin.val_ofNat]
  omega

theorem bracket_notMem_levelText (level : Level) : byte ']' ∉ bytes (levelText level) := by
  cases level <;> decide

theorem toLower_levelText (level : Level) :
    toLower (bytes (levelText level)) = bytes (levelText level) := by
  cases level <;> decide

theorem parseSpdlogLine_render (r : LogRecord) : parseSpdlogLine r.render = some
    { ts := r.timestamp, levelLower := bytes (levelText r.level), message := r.message } := by
  have hsecs : dayCount r.date * 86400 + (TimeOfDay.ofSeconds r.seconds).seconds =
      (r.seconds : ℤ) := by
    rw [TimeOfDay.seconds_ofSeconds, LogRecord.date, dayCount_after]
    omega
  have hdigits : ∀ ds, some r.millisDigits = some ds → ds.length ≤ 9 := by
    intro ds hds
    rw [← Option.some.inj hds]
    exact (by decide : 3 ≤ 9)
  rw [LogRecord.render, parseSpdlogLine_renderTime r.message (year_date r).1 (year_date r).2
    hdigits r.name_close (bracket_notMem_levelText r.level), hsecs, fractionNanos_millisDigits,
    toLower_levelText]
  rfl

theorem mem_map_toLower_iff {level : Level} :
    bytes (levelText level) ∈ spec.levelIn.map (toLower ∘ bytes) ↔
      Listed spec (levelText level) := by
  rw [Listed, toLower_levelText, List.mem_map]
  rfl

theorem message_suffix_render (r : LogRecord) : r.message <:+ r.render := by
  refine ⟨byte '[' :: (renderTime r.date (.ofSeconds r.seconds) (some r.millisDigits) ++
    byte ']' :: byte ' ' :: byte '[' :: (r.name ++ byte ']' :: byte ' ' :: byte '[' ::
      (bytes (levelText r.level) ++ [byte ']', byte ' ']))), ?_⟩
  simp [LogRecord.render, layout]

/-- A record that is asked for is matched if its level is listed as spdlog writes it. -/
theorem matches_render_iff {r : LogRecord} (h : AsksFor spec r) :
    Matches spec r.render ↔ Listed spec (levelText r.level) := by
  have hne : spec.levelIn ≠ [] := by
    obtain ⟨name, -, lvl, hlvl, -⟩ := h.level
    exact List.ne_nil_of_mem hlvl
  have hgrep : bytes spec.grepContains <:+: r.render :=
    h.contains.trans (message_suffix_render r).isInfix
  rw [← mem_map_toLower_iff]
  constructor
  · rintro ⟨parsed, hparsed, -, -, hlevel, -⟩
    obtain rfl := Option.some.inj (hparsed.symm.trans (parseSpdlogLine_render r))
    exact hlevel.resolve_left hne
  · intro hlisted
    exact ⟨_, parseSpdlogLine_render r, h.start, h.stop, .inr hlisted, hgrep⟩

/-! ## Names of levels -/

/-- Three levels are written with the name they have in the protocol. -/
theorem listed_levelText_iff {r : LogRecord} (h : AsksFor spec r) :
    Listed spec (levelText r.level) ↔ (r.level = .warn → Listed spec "warning") := by
  obtain ⟨name, hname, lvl, hlvl, heq⟩ := h.level
  have hsame : r.level ≠ .warn → toLower (bytes name) = toLower (bytes (levelText r.level)) := by
    intro hne
    cases hlevel : r.level with
    | debug | info | err =>
      rw [hlevel] at hname
      rw [← Option.some.inj hname]
      decide
    | warn => exact absurd hlevel hne
    | trace | critical | off => simp [hlevel, protocolName] at hname
  constructor
  · intro hlisted hwarn
    rwa [hwarn] at hlisted
  · intro hwarning
    by_cases hwarn : r.level = .warn
    · rw [hwarn]
      exact hwarning hwarn
    · exact ⟨lvl, hlvl, heq.trans (hsame hwarn)⟩

/-- The name of another level is not how spdlog writes this one. -/
theorem toLower_protocolName_ne {level level' : Level} {name : String}
    (hnamed : (protocolName level).isSome) (hne : level' ≠ level)
    (hname : protocolName level' = some name) :
    toLower (bytes name) ≠ toLower (bytes (levelText level)) := by
  have hall : ∀ name ∈ protocolName level',
      toLower (bytes name) ≠ toLower (bytes (levelText level)) := by
    revert hnamed hne
    cases level <;> cases level' <;> decide
  exact hall name hname

theorem not_matches_of_others {r : LogRecord} (h : AsksForOthers spec r) :
    ¬ Matches spec r.render := by
  rintro ⟨parsed, hparsed, -, -, hlevel, -⟩
  obtain rfl := Option.some.inj (hparsed.symm.trans (parseSpdlogLine_render r))
  have hlisted := mem_map_toLower_iff.mp (hlevel.resolve_left h.ne_nil)
  obtain ⟨lvl, hlvl, heq⟩ := hlisted
  obtain ⟨level, name, hne, hname, heq'⟩ := h.others lvl hlvl
  exact toLower_protocolName_ne r.named hne hname (heq'.symm.trans heq)

/-! ## Names with a newline -/

/-- Without the bracket that closes the name nothing is read. -/
theorem parseSpdlogLine_unclosed {time name : Bytes} (htime : byte ']' ∉ time)
    (hname : byte ']' ∉ name) :
    parseSpdlogLine (byte '[' :: (time ++ byte ']' :: byte ' ' :: byte '[' :: name)) = none := by
  have hspace : byte '[' ∉ [byte ' '] := by decide
  have hopen : byte ']' ∉ byte '[' :: time := by
    rw [List.mem_cons, not_or]
    exact ⟨by decide, htime⟩
  generalize hline : byte '[' :: (time ++ byte ']' :: byte ' ' :: byte '[' :: name) = line
  have hread : line.drop 0 = (byte '[' :: time) ++ byte ']' :: (byte ' ' :: byte '[' :: name) :=
    hline.symm
  obtain ⟨closeTime, h₁, -, hread₁⟩ := exists_findFrom hread hopen
  obtain ⟨levelOpen, h₂, -, hread₂⟩ := exists_findFrom (s := [byte ' ']) hread₁ hspace
  have h₃ : findFrom ']' line (levelOpen + 1) = none := by
    rw [findFrom, hread₂, Option.map_eq_none_iff, List.findIdx?_eq_none_iff]
    intro x hx
    rw [beq_eq_false_iff_ne]
    rintro rfl
    exact hname hx
  simp only [parseSpdlogLine, Option.bind_eq_bind, h₁, Option.bind_some, h₂, h₃, Option.bind_none]
  split_ifs
  all_goals first
    | rfl
    | exact Option.bind_fun_none _

/-- A record stands on one line unless its name does not. -/
theorem newline_notMem_render {r : LogRecord} (h : byte '\n' ∉ r.name) :
    byte '\n' ∉ r.render := by
  have htime : NotInTimes (byte '\n') := ⟨by decide, by decide⟩
  have hlevel : byte '\n' ∉ bytes (levelText r.level) := by
    cases r.level <;> decide
  have hmarks : byte '\n' ≠ byte '[' ∧ byte '\n' ≠ byte ']' ∧ byte '\n' ≠ byte ' ' := by decide
  simp [LogRecord.render, layout, notMem_renderTime htime, h, hlevel, hmarks, r.message_line]

/-- With a newline in its name the record's first line cannot be parsed. -/
theorem exists_first_line (spec : LogFilterSpec) {r : LogRecord} (h : byte '\n' ∈ r.name) :
    ∃ first rest, r.render = first ++ byte '\n' :: rest ∧ byte '\n' ∉ first ∧
      ¬ Matches spec first := by
  have htime : NotInTimes (byte '\n') := ⟨by decide, by decide⟩
  have hmarks : byte '\n' ≠ byte '[' ∧ byte '\n' ≠ byte ']' ∧ byte '\n' ≠ byte ' ' := by decide
  obtain ⟨before, after, hname, hbefore⟩ := List.eq_append_cons_of_mem h
  have hclose : byte ']' ∉ before := by
    have := r.name_close
    rw [hname, List.mem_append, not_or] at this
    exact this.1
  refine ⟨byte '[' :: (renderTime r.date (.ofSeconds r.seconds) (some r.millisDigits) ++
    byte ']' :: byte ' ' :: byte '[' :: before), after ++ byte ']' :: byte ' ' :: byte '[' ::
      (bytes (levelText r.level) ++ byte ']' :: byte ' ' :: r.message), ?_, ?_, ?_⟩
  · rw [LogRecord.render, layout, hname]
    simp
  · simp [notMem_renderTime htime, hbefore, hmarks]
  · rintro ⟨parsed, hparsed, -⟩
    rw [parseSpdlogLine_unclosed (notMem_renderTime notInTimes_bracket _ _ _) hclose] at hparsed
    simp at hparsed

/-! ## The base log -/

theorem fileLines_base (hfs : fs.Canonicalizes) {file : File} {base c : Path}
    (hroot : makeRoot fs opts.logRoot = some root)
    (hbase : resolvePath fs root opts.basePath = some base)
    (hc : fs.weaklyCanonical base = some c) (hexists : fs.existsAt c = .ok true)
    (hopen : fs.openRead c = some file) : fileLines fs root base = lines file.bytes := by
  have hunder : root.enabled = true → c.Below root.canonical := by
    intro hon
    have hcanonical := hfs.idem (canonical_of_enabled hroot hon)
    obtain ⟨c', hc', hbelow⟩ :=
      (leavesRoot_eq_false hfs hcanonical).mp (resolvePath_spec hbase hon)
    exact Option.some.inj (hc.symm.trans hc') ▸ hbelow
  simp only [fileLines, hc, hopen]
  rw [if_pos ⟨hexists, hunder⟩]

theorem newline_notMem_of_mem_fileLines {candidate : Path}
    (h : line ∈ fileLines fs root candidate) : byte '\n' ∉ line := by
  unfold fileLines at h
  split at h
  · exact absurd h List.not_mem_nil
  · split_ifs at h
    · split at h
      · exact absurd h List.not_mem_nil
      · exact newline_notMem_of_mem_lines h
    · exact absurd h List.not_mem_nil

theorem base_mem_candidates {base : Path} {rotations : Bool} {depth : ℕ} {candidates : List Path}
    (h : enumerateCandidates base rotations depth = some candidates) : base ∈ candidates := by
  cases rotations with
  | false =>
    rw [← Option.some.inj h]
    exact List.mem_singleton_self base
  | true =>
    rw [(enumerateCandidates_some h).2]
    exact List.mem_cons_self

/-- What a run that returns OK holds of a line of the base log. -/
theorem holdsLine_output_iff (hfs : fs.Canonicalizes) (hclose : fs.failedClose = none)
    {file : File} (hlog : BaseLog fs opts file)
    {onChunk : Option LogChunkConsumer} {eof₀ : Option LogFilterEof} {status : Status}
    (hres : (streamLogFilter fs opts spec onChunk eof₀).result = some (.ok status))
    (hok : status.ok = true) {r : LogRecord} (hheld : HoldsLine file.bytes r.render) :
    HoldsLine (chunkData (streamLogFilter fs opts spec onChunk eof₀).chunks) r.render ↔
      byte '\n' ∉ r.name ∧ Matches spec r.render := by
  obtain ⟨root, base, c, hroot, hbase, hc, hexists, hopen⟩ := hlog
  obtain ⟨root', base', candidates, hroot', hbase', hcand, hout⟩ :=
    delivered_of_ok hfs hclose hres hok
  obtain rfl := Option.some.inj (hroot.symm.trans hroot')
  obtain rfl := Option.some.inj (hbase.symm.trans hbase')
  rw [hout.data]
  have hlines : lines (render (reference fs root spec candidates)) =
      reference fs root spec candidates := by
    refine lines_render fun line hline => ?_
    obtain ⟨candidate, -, hmem⟩ := List.mem_flatMap.mp (List.mem_filter.mp hline).1
    exact newline_notMem_of_mem_fileLines hmem
  have hmatches : ∀ line ∈ lines (render (reference fs root spec candidates)),
      Matches spec line := by
    intro line hline
    rw [hlines] at hline
    exact of_decide_eq_true (List.mem_filter.mp hline).2
  by_cases hname : byte '\n' ∈ r.name
  · obtain ⟨first, rest, hrender, hfirst, hno⟩ := exists_first_line spec hname
    refine iff_of_false (fun hheld => hno (hmatches first ?_)) fun h => h.1 hname
    rw [hrender] at hheld
    exact mem_lines_of_holds hfirst hheld (.inr rfl)
  · have hline := newline_notMem_render hname
    constructor
    · intro hheld
      rw [← List.append_nil r.render] at hheld
      exact ⟨hname, hmatches _ (mem_lines_of_holds hline hheld (.inl rfl))⟩
    · rintro ⟨-, hmatch⟩
      rw [← List.append_nil r.render] at hheld
      have hmem := mem_lines_of_holds hline hheld (.inl rfl)
      rw [← fileLines_base hfs hroot hbase hc hexists hopen] at hmem
      refine holdsLine_render (List.mem_filter.mpr ⟨?_, decide_eq_true hmatch⟩)
      exact List.mem_flatMap.mpr ⟨base, base_mem_candidates hcand, hmem⟩

/-- **The agent's own records** are found by the protocol's name of their level, and by no other,
exactly if their name is on one line and they are not warnings, or are asked for as spdlog writes
them; closing the temp file loses nothing. -/
theorem finds_own_records_iff (hfs : fs.Canonicalizes) (hclose : fs.failedClose = none)
    {file : File} (hlog : BaseLog fs opts file)
    {onChunk : Option LogChunkConsumer} {eof₀ : Option LogFilterEof} {status : Status}
    (hres : (streamLogFilter fs opts spec onChunk eof₀).result = some (.ok status))
    (hok : status.ok = true) (r : LogRecord) (hheld : HoldsLine file.bytes r.render) :
    ((AsksFor spec r →
        HoldsLine (chunkData (streamLogFilter fs opts spec onChunk eof₀).chunks) r.render) ∧
      (AsksForOthers spec r →
        ¬ HoldsLine (chunkData (streamLogFilter fs opts spec onChunk eof₀).chunks) r.render)) ↔
    (AsksFor spec r → byte '\n' ∉ r.name ∧ (r.level = .warn → Listed spec "warning")) := by
  have hiff := holdsLine_output_iff hfs hclose hlog hres hok hheld
  rw [hiff]
  constructor
  · rintro ⟨hfound, -⟩ hasks
    obtain ⟨hname, hmatch⟩ := hfound hasks
    exact ⟨hname, (listed_levelText_iff hasks).mp ((matches_render_iff hasks).mp hmatch)⟩
  · intro hcond
    refine ⟨fun hasks => ?_, fun hothers hfound => not_matches_of_others hothers hfound.2⟩
    obtain ⟨hname, hwarning⟩ := hcond hasks
    exact ⟨hname, (matches_render_iff hasks).mpr ((listed_levelText_iff hasks).mpr hwarning)⟩

/-- Written at noon on 1970-01-02. -/
def noonRecord (level : Level) (named : (protocolName level).isSome) : LogRecord where
  time := 129600250000000
  level := level
  name := bytes "agent"
  message := bytes "slow disk"
  time_lt := by decide
  named := named
  name_ne := by decide
  name_open := by decide
  name_close := by decide
  message_line := by decide

def noonLog : Bytes :=
  bytes "[1970-01-02 12:00:00.250] [agent] [info] slow disk\n" ++
    bytes "[1970-01-02 12:00:00.250] [agent] [warning] slow disk\n"

def noonFile : File := ⟨noonLog, by decide +kernel⟩

def noonFs : FileSystem :=
  { sampleFs with
    openRead := fun p => if p = .ofString "/var/log/agent.log" then some noonFile else none }

theorem noonFs_canonicalizes : noonFs.Canonicalizes :=
  ⟨sampleFs_canonicalizes.normal, sampleFs_canonicalizes.idem⟩

theorem noonFs_baseLog : BaseLog noonFs sampleOptions noonFile :=
  ⟨{ enabled := true, canonical := .ofString "/var/log" }, .ofString "/var/log/agent.log",
    .ofString "/var/log/agent.log", by decide, by decide, by decide, by decide, by decide⟩

theorem noonRecord_held : HoldsLine noonLog (noonRecord .info rfl).render ∧
    HoldsLine noonLog (noonRecord .warn rfl).render := by
  refine ⟨⟨[], bytes "[1970-01-02 12:00:00.250] [agent] [warning] slow disk\n", ?_, .inl rfl⟩,
    ⟨bytes "[1970-01-02 12:00:00.250] [agent] [info] slow disk\n", [], ?_, .inr ?_⟩⟩
  all_goals decide +kernel

theorem finds_own_records_iff_noonFs :
    AsksFor { levelIn := ["Info"], grepContains := "disk" } (noonRecord .info rfl) ∧
    HoldsLine (chunkData (streamLogFilter noonFs sampleOptions
        { levelIn := ["Info"], grepContains := "disk" } (some fun _ _ => .success)
        (some {})).chunks) (noonRecord .info rfl).render := by
  have hasks : AsksFor { levelIn := ["Info"], grepContains := "disk" } (noonRecord .info rfl) :=
    ⟨⟨"INFO", rfl, "Info", List.mem_singleton_self _, by decide⟩, by simp, by simp,
      ⟨bytes "slow ", [], by decide⟩⟩
  have hres : (streamLogFilter noonFs sampleOptions
      { levelIn := ["Info"], grepContains := "disk" } (some fun _ _ => .success)
      (some {})).result = some (.ok .success) := by decide +kernel
  have hiff := finds_own_records_iff noonFs_canonicalizes rfl noonFs_baseLog hres rfl
    (noonRecord .info rfl) noonRecord_held.1
  exact ⟨hasks, (hiff.mpr fun _ => ⟨by decide, nofun⟩).1 hasks⟩

/-- A warning is not found by the name it has in the protocol. -/
theorem own_warning_not_found : ¬ ∀ (fs : FileSystem) (opts : LogOptions) (spec : LogFilterSpec)
    (file : File) (onChunk : Option LogChunkConsumer) (eof₀ : Option LogFilterEof)
    (r : LogRecord), fs.Canonicalizes → fs.failedClose = none → BaseLog fs opts file →
    (streamLogFilter fs opts spec onChunk eof₀).result = some (.ok .success) →
    HoldsLine file.bytes r.render → AsksFor spec r →
    HoldsLine (chunkData (streamLogFilter fs opts spec onChunk eof₀).chunks) r.render := by
  intro hall
  have hasks : AsksFor { levelIn := ["WARN"] } (noonRecord .warn rfl) :=
    ⟨⟨"WARN", rfl, "WARN", List.mem_singleton_self _, by decide⟩, by simp, by simp,
      List.nil_infix⟩
  have hrun : (streamLogFilter noonFs sampleOptions { levelIn := ["WARN"] }
        (some fun _ _ => .success) (some {})).result = some (.ok .success) ∧
      chunkData (streamLogFilter noonFs sampleOptions { levelIn := ["WARN"] }
        (some fun _ _ => .success) (some {})).chunks = [] := by decide +kernel
  obtain ⟨hres, hnothing⟩ := hrun
  obtain ⟨pre, post, hout, -⟩ := hall noonFs sampleOptions { levelIn := ["WARN"] } noonFile
    (some fun _ _ => .success) (some {}) (noonRecord .warn rfl) noonFs_canonicalizes rfl
    noonFs_baseLog hres noonRecord_held.2 hasks
  rw [hnothing] at hout
  have hlen := congrArg List.length hout
  simp at hlen

end Zurg.LogOps
