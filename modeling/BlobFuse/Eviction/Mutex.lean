import BlobFuse.Eviction.Queue
import BlobFuse.Eviction.Safety

/-! What a path's `file_lock_map` mutex guarantees over whole runs. A step changes who holds
a path's mutex, or which file the path names, only if it is a step of the thread holding
that mutex or of a thread taking it while free; so while one thread holds it, no
interleaving of the other threads changes the path's file or takes the mutex. And a thread
that opened its cache file under the mutex never meets the worker's exclusive lock when it
takes its shared lock: the worker holds the exclusive lock only of the file its own path
names, or of one no path names any more. -/
namespace BlobFuse

namespace Eviction

/-- The thread an action is a step of; the clock and `add_file` touch no mutex and no
file. -/
def Action.thread {P : Type} : Action P → Option Thread
  | .tick | .addFile _ => none
  | .client i _ => some (.client i)
  | _ => some .worker

variable {t : Int} {s s' : GcState}

theorem clientStep_changes (h : GcInv t s) {i : Nat} {c : ClientPc} {a : ClientAction}
    (hi : s.clients[i]? = some c) (hs : clientStep s i c a = some s') {p : String}
    (hch : s'.owner p ≠ s.owner p ∨ s'.dir.files p ≠ s.dir.files p) :
    s.owner p = some (.client i) ∨ s.owner p = none := by
  have held : ∀ q, c.mutexPath = some q → p = q → s.owner p = some (.client i) :=
    fun q hq hp => hp ▸ h.client_mutex i c q hi hq
  cases c <;> cases a <;> simp only [clientStep] at hs
  case idle.lock path | idle.getattr path =>
    split at hs
    · cases hs
      rcases hch with hch | hch
      · exact .inr ((eq_of_update_ne hch) ▸ ‹_›)
      · exact absurd rfl hch
    · cases hs
  case locked.openFile path ok =>
    split at hs
    · split at hs <;> cases hs
      · simp at hch
      · rcases hch with hch | hch
        · exact absurd rfl hch
        · exact .inl (held path rfl (eq_of_update_ne hch))
    · cases hs; simp at hch
  case opened.sharedLock =>
    split at hs
    · cases hs; simp at hch
    · split at hs
      · split at hs <;> cases hs; simp at hch
      · cases hs; simp at hch
  case holding.release path _ | failed.release path | getattr.release path =>
    cases hs
    rcases hch with hch | hch
    · exact .inl (held path rfl (eq_of_update_ne hch))
    · exact absurd rfl hch
  case using.write => cases hs; simp at hch
  case using.close => cases hs; simp at hch
  all_goals cases hs

/-- `d'` adds only fresh inodes to `d`, and drops paths: an inode of `d` that a path of `d'`
names, the path named in `d` already. -/
def CacheDir.Grows (d d' : CacheDir) : Prop :=
  d.nextInode ≤ d'.nextInode ∧ ∀ q ino, ino < d.nextInode → d'.files q = some ino → d.files q = some ino

theorem CacheDir.grows_refl (d : CacheDir) : d.Grows d := ⟨le_rfl, fun _ _ _ h => h⟩

theorem CacheDir.grows_create (d : CacheDir) (path : String) (now : Int) :
    d.Grows (d.create path now) := by
  refine ⟨Nat.le_succ _, fun q ino hlt h => ?_⟩
  simp only [create_files, Function.update_apply] at h
  split at h
  · cases h; exact absurd hlt (lt_irrefl _)
  · exact h

theorem CacheDir.grows_unlink (d : CacheDir) (path : String) : d.Grows (d.unlink path) := by
  refine ⟨le_rfl, fun q ino _ h => ?_⟩
  simp only [unlink_files, Function.update_apply] at h
  split at h
  · cases h
  · exact h

/-- The worker's exclusive lock is on an inode that exists, and a path naming it is the
path the worker locked. -/
def ExclusiveFile (s : GcState) : Prop :=
  ∀ ino, s.worker.exclusiveInode = some ino →
    ino < s.dir.nextInode ∧ ∀ q, s.dir.files q = some ino → s.worker.pathInode = some (q, ino)

theorem ExclusiveFile.of_worker_eq (he : ExclusiveFile s) (hw : s'.worker = s.worker)
    (hg : s.dir.Grows s'.dir) : ExclusiveFile s' := fun ino hino => by
  rw [hw] at hino ⊢
  obtain ⟨hlt, hq⟩ := he ino hino
  exact ⟨lt_of_lt_of_le hlt hg.1, fun q hfq => hq q (hg.2 q ino hlt hfq)⟩

theorem ExclusiveFile.of_none (hw : s'.worker.exclusiveInode = none) : ExclusiveFile s' :=
  fun ino h => by rw [hw] at h; cases h

theorem clientStep_grows {i : Nat} {c : ClientPc} {a : ClientAction}
    (hs : clientStep s i c a = some s') : s.dir.Grows s'.dir := by
  cases c <;> cases a <;> simp only [clientStep] at hs <;> (repeat' split at hs) <;> cases hs
  all_goals first
    | exact CacheDir.grows_refl _
    | exact CacheDir.grows_create _ _ _

section
variable {P : Type} [LinearOrder P] {cfg : GcConfig P}

theorem gcStep_changes (h : GcInv cfg.timeout s) {a : Action P} (hs : gcStep cfg s a = some s')
    {p : String} (hch : s'.owner p ≠ s.owner p ∨ s'.dir.files p ≠ s.dir.files p) :
    ∃ T, a.thread = some T ∧ (s.owner p = some T ∨ s.owner p = none) := by
  have worker : ∀ file : Candidate, s.worker.mutexPath = some file.path → p = file.path →
      ∃ T, (some Thread.worker) = some T ∧ (s.owner p = some T ∨ s.owner p = none) :=
    fun file hm hp => ⟨.worker, rfl, .inl (hp ▸ h.worker_mutex _ hm)⟩
  cases a <;> simp only [gcStep] at hs
  case acquire =>
    split at hs
    · split at hs
      · cases hs
        rcases hch with hch | hch
        · exact ⟨.worker, rfl, .inr ((eq_of_update_ne hch) ▸ ‹_›)⟩
        · exact absurd rfl hch
      · cases hs
    · cases hs
  case unlink =>
    split at hs
    · rename_i hw
      cases hs
      rcases hch with hch | hch
      · exact absurd rfl hch
      · exact worker _ (by rw [hw]; rfl) (eq_of_update_ne hch)
    · cases hs
  case release =>
    split at hs
    · rename_i hw
      cases hs
      rcases hch with hch | hch
      · exact worker _ (by rw [hw]; rfl) (eq_of_update_ne hch)
      · exact absurd rfl hch
    · cases hs
  case client i a =>
    split at hs
    · exact ⟨.client i, rfl, clientStep_changes h ‹_› hs hch⟩
    · cases hs
  all_goals (repeat' split at hs) <;> cases hs <;> simp at hch

/-- While a thread holds a path's mutex, no run of the other threads takes the mutex from
it or changes which file the path names. -/
theorem gcRun_mutex_keeps_file {s s' : GcState} {acts : List (Action P)} {evs : List QueueEvent}
    (hs : GcReachable cfg s) (hrun : gcRun cfg s acts = some (s', evs)) {T : Thread} {p : String}
    (hown : s.owner p = some T) (hothers : ∀ a ∈ acts, a.thread ≠ some T) :
    s'.owner p = some T ∧ s'.dir.files p = s.dir.files p := by
  induction acts generalizing s evs with
  | nil => cases hrun; exact ⟨hown, rfl⟩
  | cons a acts ih =>
    simp only [gcRun, Option.bind_eq_bind, Option.bind_eq_some] at hrun
    obtain ⟨s₁, hs₁, ⟨s₂, evs₂⟩, hrun, heq⟩ := hrun
    cases heq
    have hkeep : s₁.owner p = s.owner p ∧ s₁.dir.files p = s.dir.files p := by
      by_contra hch
      obtain ⟨T', hT', hT'own⟩ := gcStep_changes hs.inv hs₁ (not_and_or.mp hch)
      have hne := hothers a (List.mem_cons_self _ _)
      rcases hT'own with h' | h' <;> rw [hown] at h'
      · exact hne (by rw [hT', ← Option.some.inj h'])
      · cases h'
    obtain ⟨h₁, h₂⟩ := ih (.step a hs hs₁) hrun (hkeep.1.trans hown)
      (fun a' ha' => hothers a' (List.mem_cons_of_mem _ ha'))
    exact ⟨h₁, h₂.trans hkeep.2⟩

/-- Thread 0 holds the mutex of `/f` while thread 1 creates, locks and uses `/g` and the
clock runs: `/f` still names no file and thread 0 still holds its mutex. -/
theorem gcRun_mutex_keeps_file_other_path :
    let cfg : GcConfig Nat := ⟨0, 80, 50⟩
    let acts : List (Action Nat) := [.addFile "/g", .client 1 (.lock "/g"),
      .client 1 (.openFile true), .client 1 (.sharedLock false none), .client 1 .release, .tick]
    ∃ s s' evs, GcReachable cfg s ∧ gcRun cfg s acts = some (s', evs) ∧
      s.owner "/f" = some (.client 0) ∧ (∀ a ∈ acts, a.thread ≠ some (.client 0)) ∧
      s'.owner "/f" = some (.client 0) ∧ s'.dir.files "/f" = s.dir.files "/f" := by
  intro cfg acts
  let s : GcState := { gcInit 0 .empty 2 with
    owner := Function.update (gcInit 0 .empty 2).owner "/f" (some (.client 0)),
    clients := (gcInit 0 .empty 2).clients.set 0 (.locked "/f") }
  have reach : GcReachable cfg s := gcRun_reachable (.init 0 .empty 2)
    (rfl : gcRun cfg (gcInit 0 .empty 2) [.client 0 (.lock "/f")] = some (s, []))
  obtain ⟨s', evs, hrun⟩ : ∃ s' evs, gcRun cfg s acts = some (s', evs) := ⟨_, _, rfl⟩
  have hown : s.owner "/f" = some (.client 0) := by simp [s]
  have hothers : ∀ a ∈ acts, a.thread ≠ some (.client 0) := by decide
  exact ⟨s, s', evs, reach, hrun, hown, hothers, gcRun_mutex_keeps_file reach hrun hown hothers⟩

/-- Every step keeps the worker's exclusive lock on the file its path names, or on one no
path names any more: the lock is taken while the path names the file, and `unlink` drops
the only path naming it. -/
theorem gcStep_exclusiveFile (h : GcInv cfg.timeout s) (he : ExclusiveFile s) {a : Action P}
    (hs : gcStep cfg s a = some s') : ExclusiveFile s' := by
  cases a <;> simp only [gcStep] at hs
  case tick => cases hs; exact he.of_worker_eq rfl (CacheDir.grows_refl _)
  case addFile => cases hs; exact he.of_worker_eq rfl (CacheDir.grows_refl _)
  case client i a =>
    split at hs
    · exact he.of_worker_eq (clientStep_frame hs).2.2 (clientStep_grows hs)
    · cases hs
  case flock err =>
    split at hs
    · rename_i file now attrs ino hw
      cases hs
      cases err with
      | some e => exact .of_none (by simp [WorkerPc.exclusiveInode])
      | none =>
        by_cases hany : (s.clients.any fun c => c.sharedInode == some ino) = true
        · exact .of_none (by simp [hany, WorkerPc.exclusiveInode])
        · intro ino' hino'
          simp only [hany, WorkerPc.exclusiveInode, Bool.false_eq_true, if_false,
            Option.some.injEq] at hino'
          subst hino'
          have hfile := h.worker_inode file.path ino (by rw [hw]; rfl)
          refine ⟨s.dir.files_lt _ _ hfile, fun q hq => ?_⟩
          rw [s.dir.files_inj q file.path ino hq hfile]
          simp [hany, WorkerPc.pathInode]
    · cases hs
  case unlink =>
    split at hs
    · rename_i file now attrs ino hw
      cases hs
      intro ino' hino'
      simp only [WorkerPc.exclusiveInode, Option.some.injEq] at hino'
      subst hino'
      obtain ⟨hlt, hq⟩ := he ino (by rw [hw]; rfl)
      refine ⟨hlt, fun q hfq => ?_⟩
      simp only [CacheDir.unlink_files, Function.update_apply] at hfq
      split at hfq
      · cases hfq
      · have := hq q hfq
        rw [hw] at this
        simp only [WorkerPc.pathInode, Option.some.injEq, Prod.mk.injEq] at this
        exact absurd this.1.symm ‹_›
    · cases hs
  all_goals (repeat' split at hs) <;> cases hs <;>
    first | exact he | exact .of_none (by simp [WorkerPc.exclusiveInode])

theorem GcReachable.exclusiveFile {s : GcState} (hs : GcReachable cfg s) : ExclusiveFile s := by
  induction hs with
  | init clock dir n => exact .of_none (by simp [gcInit, WorkerPc.exclusiveInode])
  | step a hr hstep ih => exact gcStep_exclusiveFile hr.inv ih hstep

theorem GcReachable.exclusive_ne_opened {s : GcState} (hs : GcReachable cfg s) {i : Nat}
    {p : String} {ino : Nat} (hi : s.clients[i]? = some (.opened p ino)) :
    s.worker.exclusiveInode ≠ some ino := fun hex => by
  have h := hs.inv
  have hpath := (hs.exclusiveFile ino hex).2 p (h.client_inode i _ p ino hi rfl)
  exact h.client_ne_worker hi rfl (WorkerPc.mutexPath_of_pathInode hpath)

/-- In every interleaving, a thread that opened its cache file under the path's mutex takes
its shared lock at once, blocking or not: the worker never holds the exclusive lock of that
file, so `shared_lock_file` never waits on the worker and never fails with `EWOULDBLOCK`
because of it. -/
theorem gc_sharedLock_never_blocked {s : GcState} (hs : GcReachable cfg s) {i : Nat} {p : String}
    {ino : Nat} (hi : s.clients[i]? = some (.opened p ino)) (nonblock : Bool) :
    gcStep cfg s (.client i (.sharedLock nonblock none)) =
      some { s with clients := s.clients.set i (.holding p ino) } := by
  simp [gcStep, hi, clientStep, hs.exclusive_ne_opened hi]

/-- The worker has just unlinked `/g` and still holds its exclusive lock while a thread
creates and opens `/f`: the thread's non-blocking shared lock is taken. -/
theorem gc_sharedLock_beside_eviction :
    let cfg : GcConfig Nat := ⟨0, 80, 50⟩
    ∃ s : GcState, GcReachable cfg s ∧ s.worker.exclusiveInode = some 0 ∧
      s.clients[0]? = some (.opened "/f" 1) ∧
      gcStep cfg s (.client 0 (.sharedLock true none)) =
        some { s with clients := s.clients.set 0 (.holding "/f" 1) } := by
  intro cfg
  obtain ⟨s, evs, hrun, hw, hc⟩ : ∃ s evs, gcRun cfg (gcInit 0 .empty 1)
      [.addFile "/g", .client 0 (.lock "/g"), .client 0 (.openFile true),
        .client 0 (.sharedLock false none), .client 0 .release, .client 0 .close, .tick, .peek,
        .sample, .acquire, .stat (0, 0), .openFile true, .flock none, .unlink,
        .client 0 (.lock "/f"), .client 0 (.openFile true)] = some (s, evs) ∧
      s.worker = .unlocking ⟨"/g", 0⟩ 0 ∧ s.clients = [.opened "/f" 1] := ⟨_, _, rfl, rfl, rfl⟩
  have reach := gcRun_reachable (.init 0 .empty 1) hrun
  have hi : s.clients[0]? = some (.opened "/f" 1) := by rw [hc]; rfl
  exact ⟨s, reach, by rw [hw]; rfl, hi, gc_sharedLock_never_blocked reach hi true⟩

end

end Eviction

end BlobFuse
