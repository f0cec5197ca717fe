import BlobFuse.Eviction.Invariant

/-! What the invariant gives at the worker's `unlink`: it holds the path's mutex and the
exclusive lock of the file the path names, no other thread has that file open, and both
staleness tests passed on values still current. -/
namespace BlobFuse

namespace Eviction

namespace GcInv

variable {t : Int} {s : GcState}

/-- While the worker holds the exclusive lock of the file its path names, no client has
that file open: a client opening it would hold the same mutex, a client keeping it open
holds a shared lock. -/
theorem openInode_ne (h : GcInv t s) {p : String} {ino : Nat}
    (hpath : s.worker.pathInode = some (p, ino)) (hexcl : s.worker.exclusiveInode = some ino) :
    ∀ c ∈ s.clients, c.openInode ≠ some ino := by
  intro c hc hopen
  obtain ⟨i, hi⟩ := List.mem_iff_getElem?.mp hc
  cases hpc : c.pathInode with
  | some qi =>
    obtain ⟨q, ino'⟩ := qi
    have hino : ino' = ino := by cases c <;> simp_all [ClientPc.pathInode, ClientPc.openInode]
    subst hino
    have hq : q = p := s.dir.files_inj q p ino' (h.client_inode i c q ino' hi hpc)
      (h.worker_inode p ino' hpath)
    subst hq
    exact h.client_ne_worker hi (ClientPc.mutexPath_of_pathInode hpc)
      (WorkerPc.mutexPath_of_pathInode hpath)
  | none =>
    have hsh : c.sharedInode = some ino := by
      cases c <;> simp_all [ClientPc.pathInode, ClientPc.openInode, ClientPc.sharedInode]
    exact h.exclusive ino hexcl c hc hsh

end GcInv

section
variable {P : Type} [LinearOrder P] {cfg : GcConfig P}

/-- In every interleaving, the worker unlinks a path's cache file only while it holds the
path's mutex and the exclusive lock of the file the path names, with no other thread
having that file open (so none holding a shared lock of it), and only if
`disk_threshold_reached` is set or `now` is past the timeout from the close time and from
the `st_mtime` and `st_ctime` its `stat` read. -/
theorem gc_unlink_safe {s s' : GcState} (hs : GcReachable cfg s)
    (hstep : gcStep cfg s .unlink = some s') :
    ∃ file now mtime ctime ino, s.worker = .unlinking file now (some (mtime, ctime)) ino ∧
      s.owner file.path = some .worker ∧ s.dir.files file.path = some ino ∧
      s.worker.exclusiveInode = some ino ∧
      (∀ c ∈ s.clients, c.openInode ≠ some ino) ∧ (∀ c ∈ s.clients, c.sharedInode ≠ some ino) ∧
      (s.reached = true ∨ (cfg.timeout < now - file.closedTime ∧ cfg.timeout < now - mtime ∧
        cfg.timeout < now - ctime)) ∧
      s'.dir.files file.path = none := by
  have h := hs.inv
  simp only [gcStep] at hstep
  split at hstep
  · rename_i file now attrs ino hw
    cases hstep
    have hj := h.justified_at hw
    obtain ⟨hfirst, m, c, rfl, hsecond⟩ := hj
    have hpath : s.worker.pathInode = some (file.path, ino) := by rw [hw]; rfl
    have hexcl : s.worker.exclusiveInode = some ino := by rw [hw]; rfl
    refine ⟨file, now, m, c, ino, hw, h.worker_mutex _ (by rw [hw]; rfl),
      h.worker_inode _ _ hpath, hexcl, h.openInode_ne hpath hexcl, h.exclusive ino hexcl,
      ?_, by simp⟩
    rcases hfirst with hr | hclosed
    · exact .inl hr
    · exact hsecond.imp_right fun ⟨hm, hc⟩ => ⟨hclosed, hm, hc⟩
  · cases hstep

/-- With a one-second timeout: a file opened, locked, used and closed by a thread, then
found stale a second later, is unlinked, and nobody has it open. -/
theorem gc_unlink_after_last_close :
    ∃ s s' : GcState, GcReachable (⟨0, 80, 50⟩ : GcConfig Nat) s ∧
      gcStep (⟨0, 80, 50⟩ : GcConfig Nat) s .unlink = some s' ∧
      s.worker = .unlinking ⟨"/f", 0⟩ 1 (some (0, 0)) 0 ∧ ∀ c ∈ s.clients, c.openInode ≠ some 0 := by
  obtain ⟨s, evs, hrun, hw⟩ : ∃ s evs, gcRun (⟨0, 80, 50⟩ : GcConfig Nat) (gcInit 0 .empty 1)
      [.addFile "/f", .client 0 (.lock "/f"), .client 0 (.openFile true),
        .client 0 (.sharedLock false none), .client 0 .release, .client 0 .close, .tick, .peek,
        .sample, .acquire, .stat (0, 0), .openFile true, .flock none] = some (s, evs) ∧
      s.worker = .unlinking ⟨"/f", 0⟩ 1 (some (0, 0)) 0 := ⟨_, _, rfl, rfl⟩
  have reach := gcRun_reachable (.init 0 .empty 1) hrun
  have hstep : gcStep (⟨0, 80, 50⟩ : GcConfig Nat) s .unlink =
      some { s with dir := s.dir.unlink "/f", worker := .unlocking ⟨"/f", 0⟩ 0 } := by
    simp only [gcStep, hw]
  obtain ⟨file, now, m, c, ino, hw', -, -, -, hopen, -⟩ := gc_unlink_safe reach hstep
  rw [hw] at hw'
  cases hw'
  exact ⟨s, _, reach, hstep, hw, hopen⟩

end

end Eviction

end BlobFuse
