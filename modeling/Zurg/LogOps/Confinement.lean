import Zurg.LogOps.Filter

/-!
# Zurg.LogOps.Confinement — no file outside the log root is read

With a log root, whatever `FilterLogsToTemp` opens and whatever `ResolvePath` returns has its
canonical path below the canonical root.
-/

namespace Zurg.LogOps

open Lib Proto Grpc
open Control (LogOptions)

variable {fs : FileSystem} {root : Root} {opts : LogOptions} {spec : LogFilterSpec}

theorem opened_filterLine (st : FilterState) (line : Bytes) :
    (filterLine fs spec st line).1.opened = st.opened := by
  unfold filterLine
  dsimp only
  split_ifs <;> rfl

theorem opened_filterLines (st : FilterState) (lines : List Bytes) :
    (forEach (filterLine fs spec) st lines).1.opened = st.opened :=
  forEach_invariant (P := fun s => s.opened = st.opened)
    (fun s line hs => (opened_filterLine s line).trans hs) rfl

/-- One candidate is opened if its canonical path passes the test. -/
theorem opened_filterCandidate (st : FilterState) (candidate : Path) {p : Path}
    (hp : p ∈ (filterCandidate fs root spec st candidate).1.opened) :
    p ∈ st.opened ∨ fs.weaklyCanonical candidate = some p ∧ fs.existsAt p = .ok true ∧
      (root.enabled = true → leavesRoot fs root p = false) := by
  unfold filterCandidate at hp
  cases hc : fs.weaklyCanonical candidate with
  | none => exact .inl (by simpa [hc] using hp)
  | some canonical =>
    match he : fs.existsAt canonical with
    | .error what => exact .inl (by simpa [hc, he] using hp)
    | .ok false => exact .inl (by simpa [hc, he] using hp)
    | .ok true =>
      cases ho : root.enabled && leavesRoot fs root canonical with
      | true => exact .inl (by simpa [hc, he, ho] using hp)
      | false =>
        have hin : p ∈ st.opened ++ [canonical] := by
          simp only [hc, he, ho, Bool.false_eq_true, if_false] at hp
          cases hr : fs.openRead canonical with
          | none => simpa [hr] using hp
          | some file => simpa [hr, opened_filterLines] using hp
        rcases List.mem_append.mp hin with hin | hin
        · exact .inl hin
        · obtain rfl := List.mem_singleton.mp hin
          exact .inr ⟨rfl, he, by simpa using ho⟩

/-- What `FilterLogsToTemp` opens are canonical paths that exist and pass the test. -/
theorem opened_filterLogsToTemp {candidates : List Path} {p : Path}
    (hp : p ∈ (filterLogsToTemp fs root opts spec candidates).opened) :
    (∃ candidate, fs.weaklyCanonical candidate = some p) ∧
      (root.enabled = true → leavesRoot fs root p = false) := by
  rcases filterLogsToTemp_cases fs root opts spec candidates with
    ⟨msg, tempPath, heq⟩ | ⟨tempPath, -, heq⟩
  · simp [heq] at hp
  rw [heq] at hp
  refine forEach_invariant (f := filterCandidate fs root spec)
    (P := fun st => ∀ p ∈ st.opened, (∃ candidate, fs.weaklyCanonical candidate = some p) ∧
      (root.enabled = true → leavesRoot fs root p = false)) ?_ ?_ p hp
  · intro st candidate hst p hp
    rcases opened_filterCandidate st candidate hp with hp | ⟨hc, -, hl⟩
    · exact hst p hp
    · exact ⟨⟨candidate, hc⟩, hl⟩
  · simp

theorem resolvePath_spec {userPath : String} {p : Path} (h : resolvePath fs root userPath = some p)
    (hroot : root.enabled = true) : leavesRoot fs root p = false := by
  unfold resolvePath at h
  dsimp only at h
  split at h
  · exact nomatch h
  · next normalized _ =>
    split_ifs at h with hl
    obtain rfl := Option.some.inj h
    simpa [hroot] using hl

/-- The names of `c` are those of the root, the last one longer, and then any. -/
def SiblingOf (root c : Path) : Prop :=
  ∃ dir name more rest, more ≠ [] ∧ root.names = dir ++ [name] ∧
    c.names = dir ++ (name ++ more) :: rest

theorem SiblingOf.not_below {root c : Path} (h : SiblingOf root c) : ¬ c.Below root := by
  obtain ⟨dir, name, more, rest, hmore, hroot, hc⟩ := h
  rintro ⟨below, hbelow⟩
  rw [hroot, hc, List.append_assoc] at hbelow
  have hcons := List.append_cancel_left hbelow
  have hname : name = name ++ more := (List.cons.inj hcons).1
  exact hmore (List.self_eq_append_right.mp hname)

/-- **Root confinement.**  With a log root every file opened and every path resolved has its
canonical path below the root's; in particular it is in no sibling whose name extends the root's. -/
theorem root_confinement (hfs : fs.Canonicalizes) {logRoot : String} (hne : logRoot ≠ "")
    (hroot : makeRoot fs logRoot = some root) {p : Path}
    (hp : (∃ opts spec candidates, p ∈ (filterLogsToTemp fs root opts spec candidates).opened) ∨
      ∃ userPath, resolvePath fs root userPath = some p) :
    ∃ c, fs.weaklyCanonical p = some c ∧ c.Below root.canonical ∧
      ¬ SiblingOf root.canonical c := by
  obtain ⟨hon, hcanonical⟩ := canonical_of_makeRoot hroot hne
  have hpasses : leavesRoot fs root p = false := by
    rcases hp with ⟨opts, spec, candidates, hp⟩ | ⟨userPath, hp⟩
    · exact (opened_filterLogsToTemp hp).2 hon
    · exact resolvePath_spec hp hon
  obtain ⟨c, hc, hbelow⟩ := (leavesRoot_eq_false hfs (hfs.idem hcanonical)).mp hpasses
  exact ⟨c, hc, hbelow, fun hsib => hsib.not_below hbelow⟩

/-- A log directory with a log, a rotated log and a link that leads out of it. -/
def sampleTree : List (Path × Path) :=
  [("/var/log", "/var/log"), ("/var/log/agent.log", "/var/log/agent.log"),
    ("/var/log/agent.log.1", "/var/log/agent.log.1"),
    ("/var/log/old/../agent.log", "/var/log/agent.log"), ("/var/log/link", "/var/logs/agent.log"),
    ("/var/logs/agent.log", "/var/logs/agent.log")].map fun e => (.ofString e.1, .ofString e.2)

def sampleLog : Bytes :=
  bytes "[2025-09-27 11:00:00.000] [agent.test] [warn] skip\n" ++
    bytes "[2025-09-27 11:00:01.000] [agent.test] [Info] keep me"

def sampleFs : FileSystem where
  weaklyCanonical p := (sampleTree.find? (·.1 = p)).map (·.2)
  existsAt p := .ok (p = .ofString "/var/log/agent.log" ∨ p = .ofString "/var/logs/agent.log")
  openRead p :=
    if p = .ofString "/var/log/agent.log" then some ⟨sampleLog, by decide +kernel⟩ else none
  tempDirectoryPath := .ok (.ofString "/tmp")
  createDirectories _ := none
  suffixes _ := "0123456789abcdef"
  openWrite _ := true
  failedWrites _ := none
  failedClose := none
  reopen _ := true

theorem sampleFs_canonicalizes : sampleFs.Canonicalizes := by
  have hmem : ∀ {p c}, sampleFs.weaklyCanonical p = some c → ∃ e ∈ sampleTree, e.2 = c := by
    intro p c h
    obtain ⟨e, he, rfl⟩ := Option.map_eq_some_iff.mp h
    exact ⟨e, List.mem_of_find?_eq_some he, rfl⟩
  constructor
  · intro p c h
    obtain ⟨e, he, rfl⟩ := hmem h
    exact (show ∀ e ∈ sampleTree, e.2.Normal by decide) e he
  · intro p c h
    obtain ⟨e, he, rfl⟩ := hmem h
    exact (show ∀ e ∈ sampleTree, sampleFs.weaklyCanonical e.2 = some e.2 by decide) e he

theorem root_confinement_sampleFs :
    resolvePath sampleFs { enabled := true, canonical := .ofString "/var/log" }
        "old/../agent.log" = some (.ofString "/var/log/agent.log") ∧
      resolvePath sampleFs { enabled := true, canonical := .ofString "/var/log" } "link" = none ∧
      ∃ c, sampleFs.weaklyCanonical (.ofString "/var/log/agent.log") = some c ∧
        c.Below (.ofString "/var/log") ∧ ¬ SiblingOf (.ofString "/var/log") c :=
  have hroot : makeRoot sampleFs "/var/log" =
      some { enabled := true, canonical := .ofString "/var/log" } := by decide
  have hp : resolvePath sampleFs { enabled := true, canonical := .ofString "/var/log" }
      "old/../agent.log" = some (.ofString "/var/log/agent.log") := by decide
  ⟨hp, by decide, root_confinement sampleFs_canonicalizes (by decide) hroot (.inr ⟨_, hp⟩)⟩

end Zurg.LogOps
