import BlobFuse.Eviction.Invariant

/-! The queue over whole runs: what the worker pops, in order, followed by what is still
queued, is what `add_file` queued; the worker pops only the candidate it inspected, holding
that candidate's mutex, whatever the eligible branch ended in. The flag
`disk_threshold_reached` over a run is `check_disk_space` folded over the run's probes. -/
namespace BlobFuse

namespace Eviction

def QueueEvent.addedCandidate : QueueEvent → Option Candidate
  | .added c => some c
  | _ => none

def QueueEvent.poppedCandidate : QueueEvent → Option Candidate
  | .popped c _ => some c
  | _ => none

/-- The reading of `check_disk_space` an action makes. -/
def Action.probed {P : Type} : Action P → Option (Option P)
  | .probe used => some used
  | _ => none

theorem clientStep_frame {s s' : GcState} {i : Nat} {c : ClientPc} {a : ClientAction}
    (h : clientStep s i c a = some s') :
    s'.queue = s.queue ∧ s'.reached = s.reached ∧ s'.worker = s.worker := by
  cases c <;> cases a <;> simp only [clientStep] at h <;> (repeat' split at h) <;> cases h <;>
    exact ⟨rfl, rfl, rfl⟩

theorem GcInv.queue_eq_cons {t : Int} {s : GcState} (h : GcInv t s) {file : Candidate}
    {o : Outcome} (hw : s.worker = .popping file o) : s.queue = file :: s.queue.tail := by
  have hq := h.inspected file (by rw [hw]; rfl)
  cases hl : s.queue <;> simp_all

section
variable {P : Type} [LinearOrder P] {cfg : GcConfig P}

theorem gcStep_frame {s s' : GcState} {a : Action P} (hs : gcStep cfg s a = some s') :
    ((∀ path, a ≠ .addFile path) → a ≠ .pop → s'.queue = s.queue) ∧
      (a.probed = none → s'.reached = s.reached) := by
  cases a
  case addFile path => exact ⟨fun h => absurd rfl (h path), fun _ => by cases hs; rfl⟩
  case pop =>
    refine ⟨fun _ h => absurd rfl h, fun _ => ?_⟩
    simp only [gcStep] at hs
    split at hs <;> cases hs; rfl
  case probe used =>
    refine ⟨fun _ _ => ?_, fun h => by cases h⟩
    simp only [gcStep] at hs
    split at hs <;> cases hs <;> rfl
  case client i ca =>
    simp only [gcStep] at hs
    split at hs
    · exact ⟨fun _ _ => (clientStep_frame hs).1, fun _ => (clientStep_frame hs).2.1⟩
    · cases hs
  case tick => cases hs; exact ⟨fun _ _ => rfl, fun _ => rfl⟩
  case acquire =>
    simp only [gcStep] at hs
    (repeat' split at hs) <;> cases hs
    exact ⟨fun _ _ => rfl, fun _ => rfl⟩
  all_goals
    simp only [gcStep] at hs
    split at hs <;> cases hs <;> exact ⟨fun _ _ => rfl, fun _ => rfl⟩

theorem gcStep_queue {s s' : GcState} {a : Action P} (h : GcInv cfg.timeout s)
    (hs : gcStep cfg s a = some s') :
    (queueEvent s a).toList.filterMap QueueEvent.poppedCandidate ++ s'.queue =
      s.queue ++ (queueEvent s a).toList.filterMap QueueEvent.addedCandidate := by
  cases a
  case addFile path =>
    cases hs; simp [queueEvent, QueueEvent.addedCandidate, QueueEvent.poppedCandidate]
  case pop =>
    simp only [gcStep] at hs
    split at hs
    · rename_i file o hw
      cases hs
      conv_rhs => rw [h.queue_eq_cons hw]
      simp [queueEvent, hw, QueueEvent.poppedCandidate, QueueEvent.addedCandidate]
    · cases hs
  all_goals simp [queueEvent, (gcStep_frame hs).1 (fun _ => nofun) nofun]

theorem gcRun_queue {s s' : GcState} {acts : List (Action P)} {evs : List QueueEvent}
    (h : GcInv cfg.timeout s) (hrun : gcRun cfg s acts = some (s', evs)) :
    evs.filterMap QueueEvent.poppedCandidate ++ s'.queue =
      s.queue ++ evs.filterMap QueueEvent.addedCandidate := by
  induction acts generalizing s evs with
  | nil => cases hrun; simp
  | cons a acts ih =>
    simp only [gcRun, Option.bind_eq_bind, Option.bind_eq_some] at hrun
    obtain ⟨s₁, hs₁, ⟨s₂, evs₂⟩, hrun, heq⟩ := hrun
    cases heq
    simp only [List.filterMap_append, List.append_assoc]
    rw [ih (h.gcStep_inv hs₁) hrun, ← List.append_assoc, gcStep_queue h hs₁, List.append_assoc]

/-- In every interleaving of `add_file` with the worker and the threads using the cache,
the candidates popped, in pop order, followed by those still queued, are the candidates
queued, in queue order: none is lost or popped twice. The worker pops only the candidate it
inspected, at the end of the eligible branch with that candidate's mutex held, whatever
that branch ended in, a `flock` failing with `EWOULDBLOCK` included. -/
theorem gc_queue_pops_inspected (clock : Int) (dir : CacheDir) (n : Nat) :
    (∀ acts s evs, gcRun cfg (gcInit clock dir n) acts = some (s, evs) →
      evs.filterMap QueueEvent.poppedCandidate ++ s.queue =
        evs.filterMap QueueEvent.addedCandidate) ∧
    ∀ s s', GcReachable cfg s → gcStep cfg s .pop = some s' →
      ∃ file o, s.worker = .popping file o ∧ s.owner file.path = some .worker ∧
        s.queue = file :: s'.queue := by
  refine ⟨fun acts s evs hrun => by
    simpa [gcInit] using gcRun_queue (gcInit_inv cfg.timeout clock dir n) hrun, fun s s' hs hstep => ?_⟩
  have h := hs.inv
  simp only [gcStep] at hstep
  split at hstep
  · rename_i file o hw
    cases hstep
    exact ⟨file, o, hw, h.worker_mutex _ (by rw [hw]; rfl), h.queue_eq_cons hw⟩
  · cases hstep

/-- A thread holds the shared lock of `/f` when the worker, a second after `/f` was
queued, finds it stale: its `flock` fails with `EWOULDBLOCK`, and `/f` is popped all the
same while the thread still has it open. -/
theorem gc_pops_wouldBlock_candidate :
    ((gcRun (⟨0, 80, 50⟩ : GcConfig Nat) (gcInit 0 .empty 1)
      [.addFile "/f", .client 0 (.lock "/f"), .client 0 (.openFile true),
        .client 0 (.sharedLock false none), .client 0 .release, .tick, .peek, .sample, .acquire,
        .stat (0, 0), .openFile true, .flock none, .close, .pop, .release]).map
      fun (s, evs) => (s.queue, evs, s.clients)) =
      some ([], [.added ⟨"/f", 0⟩, .popped ⟨"/f", 0⟩ .wouldBlock], [.using 0]) := by
  decide

theorem gcStep_reached {s s' : GcState} {a : Action P} (hs : gcStep cfg s a = some s') :
    s'.reached = a.probed.toList.foldl (checkDiskSpace cfg.high cfg.low) s.reached := by
  cases a
  case probe used =>
    simp only [gcStep] at hs
    split at hs <;> cases hs <;> rfl
  all_goals exact (gcStep_frame hs).2 rfl

theorem gcRun_reached {s s' : GcState} {acts : List (Action P)} {evs : List QueueEvent}
    (hrun : gcRun cfg s acts = some (s', evs)) :
    s'.reached = (acts.filterMap Action.probed).foldl (checkDiskSpace cfg.high cfg.low) s.reached := by
  induction acts generalizing s evs with
  | nil => cases hrun; rfl
  | cons a acts ih =>
    simp only [gcRun, Option.bind_eq_bind, Option.bind_eq_some] at hrun
    obtain ⟨s₁, hs₁, ⟨s₂, evs₂⟩, hrun, heq⟩ := hrun
    cases heq
    rw [ih hrun, gcStep_reached hs₁]
    cases a <;> rfl

/-- Over every run from the start, `disk_threshold_reached` is the flag
`check_disk_space` computes over the run's probes, one after the other from `false`. -/
theorem gcRun_disk_threshold {s : GcState} {acts : List (Action P)} {evs : List QueueEvent}
    {clock : Int} {dir : CacheDir} {n : Nat}
    (hrun : gcRun cfg (gcInit clock dir n) acts = some (s, evs)) :
    s.reached = diskThresholdAfter cfg.high cfg.low (acts.filterMap Action.probed) :=
  gcRun_reached hrun

/-- A candidate not yet stale sends the worker to sleep; its probe at 85% sets the flag. -/
theorem gcRun_disk_threshold_first_probe :
    ∃ s evs, gcRun (⟨0, 80, 50⟩ : GcConfig Nat) (gcInit 0 .empty 0)
        [.addFile "/f", .peek, .sample, .probe (some 85)] = some (s, evs) ∧
      s.reached = diskThresholdAfter 80 50 [some 85] ∧ s.reached = true := by
  obtain ⟨s, evs, hrun, hr⟩ : ∃ s evs, gcRun (⟨0, 80, 50⟩ : GcConfig Nat) (gcInit 0 .empty 0)
      [.addFile "/f", .peek, .sample, .probe (some 85)] = some (s, evs) ∧ s.reached = true :=
    ⟨_, _, rfl, rfl⟩
  exact ⟨s, evs, hrun, gcRun_disk_threshold hrun, hr⟩

end

end Eviction

end BlobFuse
