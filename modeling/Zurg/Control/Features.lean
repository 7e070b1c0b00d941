import Zurg.Control.TaskTable

/-!
# Zurg.Control.Features — disallowed work is neither queued nor started

The toggles in force are the configured ones or all off.  Whatever the interleaving, the queue holds
only tasks they allow, the worker takes only such tasks, and a running task they no longer allow has
been asked to stop.
-/

namespace Zurg.Control

open Proto Lib

variable {cfg : Config} {s : Client} {h : List Event}

@[simp] theorem requestCancel_nil (flags : ℕ → Bool) : requestCancel [] flags = flags := by
  funext p
  simp [requestCancel]

theorem requestCancel_of_flag {ts : List Task} {flags : ℕ → Bool} {p : ℕ} (hp : flags p = true) :
    requestCancel ts flags p = true := by
  simp [requestCancel, hp]

theorem requestCancel_of_mem {ts : List Task} {flags : ℕ → Bool} {t : Task} (ht : t ∈ ts) :
    requestCancel ts flags t.ptr = true := by
  simp only [requestCancel, Bool.or_eq_true, List.any_eq_true, decide_eq_true_eq]
  exact .inr ⟨t, ht, rfl⟩

theorem featuresFor_cases (cfg : Config) (st : AuthState) :
    Client.featuresFor cfg st = cfg.requestedFeatures ∨
      Client.featuresFor cfg st = restrictedFeatures := by
  unfold Client.featuresFor
  split_ifs
  · exact .inl rfl
  · exact .inr rfl

/-- What relates the toggles in force to the queue and the task in work. -/
structure FeaturesInv (cfg : Config) (s : Client) (h : List Event) : Prop where
  active : s.activeFeatures = cfg.requestedFeatures ∨ s.activeFeatures = restrictedFeatures
  queued : ∀ t, some t ∈ s.taskQueue → isTaskAllowed s.activeFeatures t.kind = true
  flagged : ∀ t, s.currentTask = some t → isTaskAllowed s.activeFeatures t.kind = false →
    s.cancelRequested t.ptr = true
  started : ∀ t, .started t ∈ h → isTaskAllowed cfg.requestedFeatures t.kind = true

theorem FeaturesInv.allowed_requested (hI : FeaturesInv cfg s h) {t : Task}
    (ht : isTaskAllowed s.activeFeatures t.kind = true) :
    isTaskAllowed cfg.requestedFeatures t.kind = true := by
  rcases hI.active with ha | ha
  · rwa [← ha]
  · rw [ha, isTaskAllowed_restricted] at ht
    exact absurd ht (by simp)

/-- Steps that keep the toggles, the task in work and the flags that are set, and add nothing to
the queue. -/
theorem FeaturesInv.frame (hI : FeaturesInv cfg s h) {s' : Client} {e : List Event}
    (ha : s'.activeFeatures = s.activeFeatures) (hq : s'.taskQueue ⊆ s.taskQueue)
    (hc : ∀ t, s'.currentTask = some t → s.currentTask = some t)
    (hf : ∀ p, s.cancelRequested p = true → s'.cancelRequested p = true)
    (he : ∀ t, .started t ∉ e) : FeaturesInv cfg s' (h ++ e) where
  active := ha ▸ hI.active
  queued t ht := by rw [ha]; exact hI.queued t (hq ht)
  flagged t ht hal := hf _ (hI.flagged t (hc t ht) (ha ▸ hal))
  started t ht := hI.started t ((List.mem_append.mp ht).resolve_right (he t))

theorem featuresInv_step {a a' : Sched} {x : Act} {s' : Client} {e : List Event}
    (r : Represents a s) (hI : FeaturesInv cfg s h) (he : Effect cfg a s x s' e a') :
    FeaturesInv cfg s' (h ++ e) := by
  cases he with
  | accept hkey hv hal =>
    refine ⟨hI.active, fun t ht => ?_, hI.flagged, fun t ht => hI.started t ?_⟩
    · rcases List.mem_append.mp ht with ht | ht
      · exact hI.queued t ht
      · obtain rfl := Option.some.inj (List.mem_singleton.mp ht)
        exact hal
    · simpa using ht
  | @features event tasks cancelled hauth hcur =>
    refine ⟨featuresFor_cases cfg event.state, fun t ht => ?_, fun t ht hal => ?_,
      fun t ht => hI.started t ?_⟩
    · obtain ⟨u, hu, hut⟩ := List.mem_map.mp ht
      obtain rfl := Option.some.inj hut
      exact (List.mem_filter.mp hu).2
    · exact requestCancel_of_mem (hcur t (r.current ▸ ht) hal)
    · simpa using ht
  | @take t rest hc hq hw =>
    have hal : isTaskAllowed s.activeFeatures t.kind = true :=
      hI.queued t (by rw [r.queue, hq]; simp)
    refine ⟨hI.active, fun u hu => hI.queued u ?_, fun u hu hno => ?_, fun u hu => ?_⟩
    · rw [r.queue, hq]
      exact List.mem_cons_of_mem _ hu
    · obtain rfl := Option.some.inj hu
      exact absurd hal (by simp [hno])
    · rcases List.mem_append.mp hu with hu | hu
      · exact hI.started u hu
      · obtain rfl := Event.started.inj (List.mem_singleton.mp hu)
        exact hI.allowed_requested hal
  | cancelCurrent | reportCancel =>
    exact hI.frame rfl (List.Subset.refl _) (fun _ => id) (fun _ => requestCancel_of_flag)
      (by simp [sendErrorFor])
  | cancel => exact hI.frame rfl (List.erase_subset) (fun _ => id) (fun _ => id) (by simp)
  | shutdown | streamClosed =>
    exact hI.frame rfl (List.nil_subset _) (fun _ => id) (fun _ => requestCancel_of_flag)
      (by simp [sendErrorFor])
  | finish => exact hI.frame rfl (List.Subset.refl _) (by simp) (fun _ => id) (by simp)
  | _ =>
    exact hI.frame rfl (List.Subset.refl _) (fun _ => id) (fun _ => id) (by simp [sendErrorFor])

theorem featuresInv_of_reach (r : (client cfg).Reach s h) : FeaturesInv cfg s h :=
  invariant_of_effects (I := FeaturesInv cfg)
    ⟨.inl rfl, by simp [Client.new], by simp [Client.new], by simp⟩
    (fun ha hI _ he => featuresInv_step ha hI he) r

/-- A step that makes `t` the current task takes it from the queue. -/
theorem queued_of_made_current {a a' : Sched} {x : Act} {s' : Client} {e : List Event} {t : Task}
    (r : Represents a s) (he : Effect cfg a s x s' e a') (ht : s'.currentTask = some t)
    (hn : s.currentTask ≠ some t) :
    some t ∈ s.taskQueue ∧ s'.activeFeatures = s.activeFeatures := by
  cases he with
  | take hc hq hw =>
    obtain rfl := Option.some.inj ht
    exact ⟨by rw [r.queue, hq]; simp, rfl⟩
  | finish => exact absurd ht nofun
  | _ => exact absurd ht hn

/-- **Disallowed work is never queued or started.** -/
theorem disallowed_never_queued_or_started (r : (client cfg).Reach s h) :
    (s.activeFeatures = cfg.requestedFeatures ∨ s.activeFeatures = restrictedFeatures) ∧
    (∀ t, some t ∈ s.taskQueue → isTaskAllowed s.activeFeatures t.kind = true) ∧
    (∀ x s' e t, s.step cfg x = some (s', e) → s'.currentTask = some t →
      s.currentTask ≠ some t → isTaskAllowed s'.activeFeatures t.kind = true) ∧
    (∀ t, s.currentTask = some t → isTaskAllowed s.activeFeatures t.kind = false →
      s.cancelRequested t.ptr = true) ∧
    (∀ t, .started t ∈ h → isTaskAllowed cfg.requestedFeatures t.kind = true) := by
  have hI := featuresInv_of_reach r
  refine ⟨hI.active, hI.queued, fun x s' e t hst ht hn => ?_, hI.flagged, hI.started⟩
  obtain ⟨a, ha⟩ := represents_of_reach r
  obtain ⟨a', he, -⟩ := step_sim ha hst
  obtain ⟨hq, hact⟩ := queued_of_made_current ha he ht hn
  rw [hact]
  exact hI.queued t hq

/-- With one task running and one queued, authorization is lost. -/
theorem disallowed_never_queued_or_started_offline : ∃ s h, (client demoConfig).Reach s h ∧
    s.activeFeatures = restrictedFeatures ∧ s.taskQueue = [] ∧
    ∀ t, s.currentTask = some t → isTaskAllowed s.activeFeatures t.kind = false →
      s.cancelRequested t.ptr = true :=
  have r := Machine.run_schedule (client demoConfig) (fun _ _ => True)
    (twoOps ++ [.authEvent ⟨.offline⟩]) rfl
  ⟨_, _, r, by decide, by decide, (disallowed_never_queued_or_started r).2.2.2.1⟩

end Zurg.Control
