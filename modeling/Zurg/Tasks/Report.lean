import Zurg.LogOps.Written
import Zurg.Tasks.Exec

/-!
# Zurg.Tasks.Report — what can be read of the exec report

`CollectUpInterfaces` collects the entries of `getifaddrs` by name and writes a line for each name,
in the order of a hash map.  Whatever that order is, the report can be read back: each interface
that is up is in it once, with its addresses in the order of the list
(`readReport_collectUpInterfaces`).
-/

namespace Zurg.Tasks

open Proto LogOps
open Control (execValidate)

/-! ## What is up -/

variable {list : List IfAddr} {info info' : List InterfaceInfo} {entry : InterfaceInfo}
  {ifa : IfAddr} {name name' address : Bytes} {addresses : List Bytes}

/-- The entry is of the interface, which is up. -/
def IfAddr.IsOf (ifa : IfAddr) (name : Bytes) : Prop := ifa.name = some name ∧ ifa.up = true

instance (ifa : IfAddr) (name : Bytes) : Decidable (ifa.IsOf name) :=
  inferInstanceAs (Decidable (_ ∧ _))

def IsUp (list : List IfAddr) (name : Bytes) : Prop := ∃ ifa ∈ list, ifa.IsOf name

instance (list : List IfAddr) (name : Bytes) : Decidable (IsUp list name) :=
  inferInstanceAs (Decidable (∃ ifa ∈ list, ifa.IsOf name))

/-- The addresses of an interface, in the order of the list. -/
def addressesOf (list : List IfAddr) (name : Bytes) : List Bytes :=
  (list.filter fun ifa => ifa.IsOf name).flatMap fun ifa => (ifa.addr.bind addressText).toList

/-- Each interface that is up is there once, with all its addresses. -/
structure Describes (list : List IfAddr) (info : List InterfaceInfo) : Prop where
  nodup : (info.map InterfaceInfo.name).Nodup
  mem_iff : ∀ entry, entry ∈ info ↔
    IsUp list entry.name ∧ entry.addresses = addressesOf list entry.name

theorem Describes.perm (h : Describes list info) (hp : info'.Perm info) : Describes list info' :=
  ⟨(hp.map InterfaceInfo.name).nodup_iff.mpr h.nodup, fun entry =>
    hp.mem_iff.trans (h.mem_iff entry)⟩

/-! ## The map -/

/-- The addresses under a name. -/
def lookUp (name : Bytes) : List InterfaceInfo → Option (List Bytes)
  | [] => none
  | entry :: info => if entry.name = name then some entry.addresses else lookUp name info

theorem lookUp_addAddresses :
    lookUp name' (addAddresses name addresses info) =
      if name = name' then some ((lookUp name info).getD [] ++ addresses)
      else lookUp name' info := by
  induction info with
  | nil => rfl
  | cons entry info ih =>
    rw [addAddresses, lookUp, lookUp]
    by_cases he : entry.name = name
    · rw [if_pos he, if_pos he, lookUp, he]
      split_ifs <;> rfl
    · rw [if_neg he, if_neg he, lookUp, ih]
      split_ifs with h h'
      · exact absurd (h.trans h'.symm) he
      · rfl
      · rfl
      · rfl

theorem mem_names_addAddresses :
    name' ∈ (addAddresses name addresses info).map InterfaceInfo.name ↔
      name' = name ∨ name' ∈ info.map InterfaceInfo.name := by
  induction info with
  | nil => simp [addAddresses]
  | cons entry info ih =>
    rw [addAddresses]
    split_ifs with he
    · simp [he]
    · rw [List.map_cons, List.mem_cons, ih, List.map_cons, List.mem_cons, or_left_comm]

theorem nodup_addAddresses (h : (info.map InterfaceInfo.name).Nodup) :
    ((addAddresses name addresses info).map InterfaceInfo.name).Nodup := by
  induction info with
  | nil => exact List.nodup_singleton name
  | cons entry info ih =>
    obtain ⟨hnot, h⟩ := List.nodup_cons.mp h
    rw [addAddresses]
    split_ifs with he
    · exact List.nodup_cons.mpr ⟨hnot, h⟩
    · refine List.nodup_cons.mpr ⟨fun hmem => ?_, ih h⟩
      exact (mem_names_addAddresses.mp hmem).elim he hnot

theorem mem_iff_lookUp (h : (info.map InterfaceInfo.name).Nodup) :
    entry ∈ info ↔ lookUp entry.name info = some entry.addresses := by
  induction info with
  | nil => simp [lookUp]
  | cons first info ih =>
    obtain ⟨hnot, h⟩ := List.nodup_cons.mp h
    rw [lookUp, List.mem_cons, ih h]
    split_ifs with he
    · have hnone : lookUp entry.name info ≠ some entry.addresses := fun hl =>
        hnot (List.mem_map.mpr ⟨entry, (ih h).mpr hl, he.symm⟩)
      rw [or_iff_left hnone, Option.some.injEq]
      constructor
      · rintro rfl
        rfl
      · intro ha
        cases first
        cases entry
        simp_all
    · rw [or_iff_right]
      rintro rfl
      exact he rfl

/-! ## The loop -/

theorem lookUp_collect :
    lookUp name (collect info ifa) =
      if ifa.IsOf name then some ((lookUp name info).getD [] ++ (ifa.addr.bind addressText).toList)
      else lookUp name info := by
  unfold collect
  by_cases hof : ifa.IsOf name
  · rw [if_pos hof, hof.1, hof.2]
    exact lookUp_addAddresses.trans (if_pos rfl)
  · rw [if_neg hof]
    split
    · rfl
    · next of hname =>
      split_ifs with hup
      · rfl
      · rw [lookUp_addAddresses, if_neg]
        rintro rfl
        exact hof ⟨hname, by simpa using hup⟩

theorem addressesOf_concat :
    addressesOf (list ++ [ifa]) name = addressesOf list name ++
      if ifa.IsOf name then (ifa.addr.bind addressText).toList else [] := by
  unfold addressesOf
  rw [List.filter_append, List.flatMap_append]
  split_ifs with h <;> simp [h]

theorem isUp_concat : IsUp (list ++ [ifa]) name ↔ IsUp list name ∨ ifa.IsOf name := by
  simp [IsUp, or_and_right, exists_or]

theorem addressesOf_eq_nil (h : ¬ IsUp list name) : addressesOf list name = [] := by
  rw [addressesOf, List.filter_eq_nil_iff.mpr fun ifa hifa hof =>
    h ⟨ifa, hifa, of_decide_eq_true hof⟩]
  rfl

theorem lookUp_collected (list : List IfAddr) (name : Bytes) :
    lookUp name (list.foldl collect []) =
      if IsUp list name then some (addressesOf list name) else none := by
  induction list using List.reverseRecOn with
  | nil => rfl
  | append_singleton list ifa ih =>
    have hold : (lookUp name (list.foldl collect [])).getD [] = addressesOf list name := by
      rw [ih]
      split_ifs with hup
      · rfl
      · exact (addressesOf_eq_nil hup).symm
    rw [List.foldl_concat, lookUp_collect, addressesOf_concat, hold, ih]
    by_cases hof : ifa.IsOf name
    · rw [if_pos hof, if_pos hof, if_pos (isUp_concat.mpr (.inr hof))]
    · rw [if_neg hof, if_neg hof, List.append_nil]
      simp only [isUp_concat, hof, or_false]

theorem nodup_collected (list : List IfAddr) :
    ((list.foldl collect []).map InterfaceInfo.name).Nodup := by
  induction list using List.reverseRecOn with
  | nil => exact List.nodup_nil
  | append_singleton list ifa ih =>
    rw [List.foldl_concat]
    unfold collect
    split
    · exact ih
    · split_ifs
      · exact ih
      · exact nodup_addAddresses ih

/-- The loop collects what the list says. -/
theorem describes_collected (list : List IfAddr) : Describes list (list.foldl collect []) := by
  refine ⟨nodup_collected list, fun entry => ?_⟩
  rw [mem_iff_lookUp (nodup_collected list), lookUp_collected]
  split_ifs with hup
  · simp [hup, eq_comm]
  · simp [hup]

/-! ## The lines -/

/-- What follows the name. -/
def afterName (addresses : List Bytes) : Bytes :=
  if addresses = [] then [] else bytes " " ++ (bytes ",").intercalate addresses

/-- The line of an interface, without its newline. -/
def interfaceText (entry : InterfaceInfo) : Bytes :=
  bytes "interface " ++ (entry.name ++ afterName entry.addresses)

theorem flatMap_interfaceLine (info : List InterfaceInfo) :
    info.flatMap interfaceLine = render (info.map interfaceText) := by
  rw [render, List.flatMap_map]
  refine List.flatMap_congr fun entry _ => ?_
  rw [interfaceText, ← List.append_assoc]
  rfl

/-- What a line says of an interface. -/
def readInterface (line : Bytes) : Option InterfaceInfo :=
  if line.take 10 = bytes "interface " then
    let rest := (line.drop 10).dropWhile (· != byte ' ')
    some
      { name := (line.drop 10).takeWhile (· != byte ' ')
        addresses := if rest = [] then [] else (rest.drop 1).splitOn (byte ',') }
  else none

/-- What a report says. -/
def readReport (report : Bytes) : Option (List InterfaceInfo) :=
  if report = bytes "no interfaces are up" then some [] else (lines report).mapM readInterface

/-- Nothing in the texts is a separator. -/
structure InterfaceInfo.Readable (entry : InterfaceInfo) : Prop where
  space : byte ' ' ∉ entry.name
  newline : byte '\n' ∉ entry.name
  addresses : ∀ address ∈ entry.addresses, byte ',' ∉ address ∧ byte '\n' ∉ address

/-- No blank in the name, which the kernel refuses, and nothing in the host that would end it. -/
structure IfAddr.Readable (ifa : IfAddr) : Prop where
  name : ∀ name, ifa.name = some name → byte ' ' ∉ name ∧ byte '\n' ∉ name
  host : ∀ family host, ifa.addr = some (family, some host) → byte ',' ∉ host ∧ byte '\n' ∉ host

theorem afterName_cons (h : addresses ≠ []) :
    afterName addresses = byte ' ' :: [byte ','].intercalate addresses := if_neg h

/-- The name ends at the first space. -/
theorem takeWhile_name (addresses : List Bytes) (h : byte ' ' ∉ name) :
    (name ++ afterName addresses).takeWhile (· != byte ' ') = name ∧
      (name ++ afterName addresses).dropWhile (· != byte ' ') = afterName addresses := by
  have hall : ∀ b ∈ name, (b != byte ' ') = true := fun b hb =>
    bne_iff_ne.mpr fun hsp => h (hsp ▸ hb)
  rw [List.takeWhile_append_of_pos hall, List.dropWhile_append_of_pos hall]
  by_cases hnil : addresses = []
  · simp [afterName, hnil]
  · simp [afterName_cons hnil]

/-- The addresses are what commas separate. -/
theorem splitOn_afterName (h : ∀ address ∈ addresses, byte ',' ∉ address) :
    (if afterName addresses = [] then [] else ((afterName addresses).drop 1).splitOn (byte ',')) =
      addresses := by
  by_cases hnil : addresses = []
  · rw [hnil]
    rfl
  · rw [afterName_cons hnil, if_neg (List.cons_ne_nil _ _), List.drop_one, List.tail_cons]
    exact List.splitOn_intercalate (byte ',') h hnil

theorem readInterface_interfaceText (h : entry.Readable) :
    readInterface (interfaceText entry) = some entry := by
  have htake : (interfaceText entry).take 10 = bytes "interface " := rfl
  have hdrop : (interfaceText entry).drop 10 = entry.name ++ afterName entry.addresses := rfl
  obtain ⟨hname, hrest⟩ := takeWhile_name entry.addresses h.space
  rw [readInterface, if_pos htake]
  dsimp only
  rw [hdrop, hname, hrest, splitOn_afterName fun address ha => (h.addresses address ha).1]

theorem notMem_intercalate {b sep : UInt8} {ls : List Bytes} (hne : b ≠ sep)
    (h : ∀ l ∈ ls, b ∉ l) : b ∉ [sep].intercalate ls := by
  induction ls with
  | nil => exact List.not_mem_nil
  | cons l ls ih =>
    have hl := h l List.mem_cons_self
    have hls := ih fun l' hm => h l' (List.mem_cons_of_mem _ hm)
    by_cases hnil : ls = []
    · rw [hnil, List.intercalate_singleton]
      exact hl
    · rw [List.intercalate_cons_of_ne_nil hnil, List.mem_append, List.mem_append,
        List.mem_singleton]
      exact not_or.mpr ⟨not_or.mpr ⟨hl, hne⟩, hls⟩

theorem newline_notMem_interfaceText (h : entry.Readable) : byte '\n' ∉ interfaceText entry := by
  have hafter : byte '\n' ∉ afterName entry.addresses := by
    by_cases hnil : entry.addresses = []
    · rw [afterName, if_pos hnil]
      exact List.not_mem_nil
    · rw [afterName_cons hnil, List.mem_cons]
      refine not_or.mpr ⟨by decide, notMem_intercalate (by decide) fun address ha => ?_⟩
      exact (h.addresses address ha).2
  rw [interfaceText, List.mem_append, List.mem_append]
  exact not_or.mpr ⟨by decide, not_or.mpr ⟨h.newline, hafter⟩⟩

theorem mapM_readInterface (h : ∀ entry ∈ info, entry.Readable) :
    (info.map interfaceText).mapM readInterface = some info := by
  induction info with
  | nil => rfl
  | cons entry info ih =>
    rw [List.map_cons, List.mapM_cons, readInterface_interfaceText (h entry List.mem_cons_self),
      ih fun entry' hm => h entry' (List.mem_cons_of_mem _ hm)]
    rfl

/-- The text of an address is a label and the host. -/
theorem addressText_eq_some {addr : Family × Option Bytes} (h : addressText addr = some address) :
    ∃ family label host, addr = (family, some host) ∧ address = label ++ host ∧
      byte ',' ∉ label ∧ byte '\n' ∉ label := by
  unfold addressText at h
  split at h
  · exact ⟨_, _, _, rfl, (Option.some.inj h).symm, by decide, by decide⟩
  · exact ⟨_, _, _, rfl, (Option.some.inj h).symm, by decide, by decide⟩
  · exact absurd h (by simp)

theorem readable_of_describes (h : Describes list info) (hread : ∀ ifa ∈ list, ifa.Readable) :
    ∀ entry ∈ info, entry.Readable := by
  intro entry hentry
  obtain ⟨⟨ifa, hifa, hname, -⟩, haddr⟩ := (h.mem_iff entry).mp hentry
  obtain ⟨hspace, hnewline⟩ := (hread ifa hifa).name _ hname
  refine ⟨hspace, hnewline, fun address ha => ?_⟩
  rw [haddr] at ha
  obtain ⟨ifa', hifa', ha⟩ := List.mem_flatMap.mp ha
  obtain ⟨addr, haddr', htext⟩ := Option.bind_eq_some_iff.mp (Option.mem_toList.mp ha)
  obtain ⟨family, label, host, rfl, rfl, hcomma, hline⟩ := addressText_eq_some htext
  obtain ⟨hcomma', hline'⟩ := (hread ifa' (List.mem_of_mem_filter hifa')).host family host haddr'
  rw [List.mem_append, List.mem_append]
  exact ⟨not_or.mpr ⟨hcomma, hcomma'⟩, not_or.mpr ⟨hline, hline'⟩⟩

/-! ## The report -/

/-- **The report can be read back**, whatever the order of the map. -/
theorem readReport_collectUpInterfaces {ifs : Interfaces} {report : Bytes}
    (hread : ∀ list, ifs.ifaddrs = some list → ∀ ifa ∈ list, ifa.Readable)
    (h : collectUpInterfaces ifs = .ok report) :
    ∃ list info, ifs.ifaddrs = some list ∧ readReport report = some info ∧ Describes list info := by
  unfold collectUpInterfaces at h
  split at h
  · exact absurd h (by simp)
  · next list hlist =>
    have hD := describes_collected list
    refine ⟨list, ?_⟩
    dsimp only at h
    split_ifs at h with hnil
    · obtain rfl := Except.ok.inj h
      exact ⟨[], hlist, if_pos rfl, hnil ▸ hD⟩
    · obtain rfl := Except.ok.inj h
      have hD' := hD.perm (ifs.iterate_perm _)
      have hreadable := readable_of_describes hD' (hread list hlist)
      refine ⟨_, hlist, ?_, hD'⟩
      have hlines : ∀ line ∈ (ifs.iterate (list.foldl collect [])).map interfaceText,
          byte '\n' ∉ line := by
        intro line hline
        obtain ⟨entry, hentry, rfl⟩ := List.mem_map.mp hline
        exact newline_notMem_interfaceText (hreadable entry hentry)
      rw [flatMap_interfaceLine, readReport, if_neg, lines_render hlines,
        mapM_readInterface hreadable]
      -- a line ends with a newline, and the other text has none
      intro heq
      rcases getLast?_render ((ifs.iterate (list.foldl collect [])).map interfaceText) with h | h
      · exact absurd (heq.symm.trans h) (by decide)
      · exact absurd ((congrArg List.getLast? heq).symm.trans h) (by decide)

theorem collectUpInterfaces_ne_nil {ifs : Interfaces} {report : Bytes}
    (h : collectUpInterfaces ifs = .ok report) : report ≠ [] := by
  unfold collectUpInterfaces at h
  split at h
  · exact absurd h (by simp)
  · next list _ =>
    dsimp only at h
    split_ifs at h with hnil
    · obtain rfl := Except.ok.inj h
      decide
    · obtain rfl := Except.ok.inj h
      obtain ⟨entry, hentry⟩ := List.exists_mem_of_ne_nil _ hnil
      intro hempty
      have hline := List.flatMap_eq_nil_iff.mp hempty entry
        ((ifs.iterate_perm _).mem_iff.mpr hentry)
      rw [interfaceLine] at hline
      exact absurd (List.append_eq_nil_iff.mp hline).2 (by decide)

theorem truncateOutput_spec (maxOutputBytes : ℕ) (output : Bytes) :
    truncateOutput maxOutputBytes output <+: output ∧
      (truncateOutput maxOutputBytes output = output ∨
        0 < maxOutputBytes ∧ (truncateOutput maxOutputBytes output).length = maxOutputBytes) := by
  unfold truncateOutput
  split_ifs with h
  · exact ⟨List.take_prefix _ _, .inr ⟨h.1, List.length_take_of_le h.2.le⟩⟩
  · exact ⟨List.prefix_refl _, .inl rfl⟩

/-- A run that completes sends the report, as far as it may, in one chunk. -/
theorem runExec_completed {ifs : Interfaces} {polls : Polls} {spec : ExecSpec}
    (h : (runExec ifs polls spec).state = .completed) :
    ∃ report, collectUpInterfaces ifs = .ok report ∧ (runExec ifs polls spec).outputs =
      [.execData ⟨truncateOutput spec.maxOutputBytes report⟩,
        .eofExec ⟨0, "interfaces collected"⟩] := by
  unfold runExec at h ⊢
  cases hspec : execValidate spec with
  | some reason => simp [hspec, TaskRun.stopped] at h
  | none =>
    cases hreport : collectUpInterfaces ifs with
    | error status => simp [hspec, hreport, TaskRun.stopped] at h
    | ok report =>
      by_cases hstop : polls.stop 0 = true
      · simp [hspec, hreport, hstop, TaskRun.stopped] at h
      · have hne : truncateOutput spec.maxOutputBytes report ≠ [] := by
          rcases (truncateOutput_spec spec.maxOutputBytes report).2 with heq | ⟨hpos, hlen⟩
          · rw [heq]
            exact collectUpInterfaces_ne_nil hreport
          · exact List.ne_nil_of_length_pos (hpos.trans_eq hlen.symm)
        refine ⟨report, rfl, ?_⟩
        simp only [hstop, if_false, Bool.false_eq_true, hne, List.singleton_append]

end Zurg.Tasks
