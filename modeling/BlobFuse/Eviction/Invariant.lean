import BlobFuse.Eviction.Model

/-! The invariant of the eviction system: who holds each path's mutex, which inode a
descriptor taken under a mutex names, that the worker's exclusive lock excludes every
shared lock, what the worker's two staleness tests established, and that the worker works
on the queue's front. Every action keeps it, so it holds in every reachable state. -/
namespace BlobFuse

namespace Eviction

/-- What the worker's tests established about the candidate it works on: the first test
from the sample on, the second (on what `stat` read) from the open on, and a failed `stat`
means the path names no file. -/
def WorkerPc.Justified (timeout : Int) (reached : Bool) (dir : CacheDir) : WorkerPc → Prop
  | .eligible f now | .locked f now => reached = true ∨ timeout < now - f.closedTime
  | .opening f now attrs =>
    (reached = true ∨ timeout < now - f.closedTime) ∧
    (∀ m c, attrs = some (m, c) → reached = true ∨ (timeout < now - m ∧ timeout < now - c)) ∧
    (attrs = none → dir.files f.path = none)
  | .flocking f now attrs _ | .unlinking f now attrs _ =>
    (reached = true ∨ timeout < now - f.closedTime) ∧
    ∃ m c, attrs = some (m, c) ∧ (reached = true ∨ (timeout < now - m ∧ timeout < now - c))
  | _ => True

theorem WorkerPc.justified_of_files {w : WorkerPc} {t : Int} {r : Bool} {d d' : CacheDir}
    (hj : w.Justified t r d) (hd : ∀ p, w.mutexPath = some p → d'.files p = d.files p) :
    w.Justified t r d' := by
  cases w with
  | opening f now attrs => exact ⟨hj.1, hj.2.1, fun ha => (hd _ rfl).trans (hj.2.2 ha)⟩
  | _ => exact hj

theorem WorkerPc.mutexPath_of_pathInode {w : WorkerPc} {p : String} {ino : Nat}
    (h : w.pathInode = some (p, ino)) : w.mutexPath = some p := by
  cases w <;> simp_all [pathInode, mutexPath]

theorem ClientPc.mutexPath_of_pathInode {c : ClientPc} {p : String} {ino : Nat}
    (h : c.pathInode = some (p, ino)) : c.mutexPath = some p := by
  cases c <;> simp_all [pathInode, mutexPath]

theorem getElem?_set_eq_some {α : Type} {l : List α} {i j : Nat} {a c : α}
    (h : (l.set i a)[j]? = some c) : (i = j ∧ c = a) ∨ (i ≠ j ∧ l[j]? = some c) := by
  rw [List.getElem?_set] at h
  split at h
  · split at h
    · exact .inl ⟨‹_›, (Option.some.inj h).symm⟩
    · cases h
  · exact .inr ⟨‹_›, h⟩

theorem eq_of_update_ne {β : Type} {f : String → β} {q p : String} {v : β}
    (h : Function.update f q v p ≠ f p) : p = q := by
  by_contra hne
  exact h (Function.update_noteq hne _ _)

structure GcInv (timeout : Int) (s : GcState) : Prop where
  worker_mutex : ∀ p, s.worker.mutexPath = some p → s.owner p = some .worker
  client_mutex : ∀ (i : Nat) (c : ClientPc) p, s.clients[i]? = some c → c.mutexPath = some p →
    s.owner p = some (.client i)
  worker_inode : ∀ p ino, s.worker.pathInode = some (p, ino) → s.dir.files p = some ino
  client_inode : ∀ (i : Nat) (c : ClientPc) p ino, s.clients[i]? = some c →
    c.pathInode = some (p, ino) →
    s.dir.files p = some ino
  exclusive : ∀ ino, s.worker.exclusiveInode = some ino → ∀ c ∈ s.clients,
    c.sharedInode ≠ some ino
  justified : s.worker.Justified timeout s.reached s.dir
  inspected : ∀ f, s.worker.inspected = some f → s.queue.head? = some f

namespace GcInv

variable {t : Int} {s : GcState}

theorem client_ne_worker (h : GcInv t s) {i : Nat} {c : ClientPc} {p : String}
    (hc : s.clients[i]? = some c) (hcp : c.mutexPath = some p) : s.worker.mutexPath ≠ some p :=
  fun hw => by simpa using (h.worker_mutex p hw).symm.trans (h.client_mutex i c p hc hcp)

/-! ### Client steps -/

theorem client_move (h : GcInv t s) {i : Nat} {c c' : ClientPc} (hi : s.clients[i]? = some c)
    (owner' : String → Option Thread) (dir' : CacheDir)
    (hown : ∀ p, owner' p ≠ s.owner p → c.mutexPath = some p ∨ c'.mutexPath = some p)
    (htake : ∀ p, c'.mutexPath = some p →
      owner' p = some (.client i) ∧ (c.mutexPath = some p ∨ s.owner p = none))
    (hdir : ∀ p, dir'.files p ≠ s.dir.files p → c'.mutexPath = some p)
    (hinode : ∀ p ino, c'.pathInode = some (p, ino) → dir'.files p = some ino)
    (hshared : ∀ ino, s.worker.exclusiveInode = some ino → c'.sharedInode ≠ some ino) :
    GcInv t { s with owner := owner', dir := dir', clients := s.clients.set i c' } := by
  have held : ∀ p, c.mutexPath = some p → s.owner p = some (.client i) :=
    fun p hp => h.client_mutex i c p hi hp
  -- a path held by another thread keeps its owner and its file
  have other : ∀ p, s.owner p ≠ some (.client i) → s.owner p ≠ none →
      owner' p = s.owner p ∧ dir'.files p = s.dir.files p := by
    intro p hne hnone
    have hnot : c'.mutexPath ≠ some p := fun hp =>
      (htake p hp).2.elim (fun hc => hne (held p hc)) hnone
    refine ⟨?_, ?_⟩
    · by_contra hch
      exact (hown p hch).elim (fun hc => hne (held p hc)) hnot
    · by_contra hch
      exact hnot (hdir p hch)
  have worker_other : ∀ p, s.worker.mutexPath = some p →
      owner' p = s.owner p ∧ dir'.files p = s.dir.files p := fun p hp =>
    other p (by simp [h.worker_mutex p hp]) (by simp [h.worker_mutex p hp])
  have client_other : ∀ j d p, i ≠ j → s.clients[j]? = some d → d.mutexPath = some p →
      owner' p = s.owner p ∧ dir'.files p = s.dir.files p := fun j d p hij hj hp =>
    other p (by simp [h.client_mutex j d p hj hp, Ne.symm hij])
      (by simp [h.client_mutex j d p hj hp])
  refine ⟨fun p hp => ?_, fun j d p hj hp => ?_, fun p ino hp => ?_, fun j d p ino hj hp => ?_,
    fun ino hino d hd => ?_, WorkerPc.justified_of_files h.justified (fun p hp => (worker_other p hp).2),
    h.inspected⟩
  · exact (worker_other p hp).1.trans (h.worker_mutex p hp)
  · rcases getElem?_set_eq_some hj with ⟨rfl, rfl⟩ | ⟨hij, hj⟩
    · exact (htake p hp).1
    · exact (client_other j d p hij hj hp).1.trans (h.client_mutex j d p hj hp)
  · exact (worker_other p (WorkerPc.mutexPath_of_pathInode hp)).2.trans (h.worker_inode p ino hp)
  · rcases getElem?_set_eq_some hj with ⟨rfl, rfl⟩ | ⟨hij, hj⟩
    · exact hinode p ino hp
    · exact (client_other j d p hij hj (ClientPc.mutexPath_of_pathInode hp)).2.trans
        (h.client_inode j d p ino hj hp)
  · rcases List.mem_or_eq_of_mem_set hd with hd | rfl
    · exact h.exclusive ino hino d hd
    · exact hshared ino hino

theorem clientStep_inv (h : GcInv t s) {i : Nat} {c : ClientPc} (hi : s.clients[i]? = some c)
    {a : ClientAction} {s' : GcState} (hs : clientStep s i c a = some s') : GcInv t s' := by
  -- a thread that holds its path's mutex keeps it
  have keep : ∀ p, c.mutexPath = some p → ∀ q, some p = some q →
      s.owner q = some (.client i) ∧ (c.mutexPath = some q ∨ s.owner q = none) :=
    fun p hc q hq => by cases hq; exact ⟨h.client_mutex i c p hi hc, .inl hc⟩
  have mem : c ∈ s.clients := List.getElem?_mem hi
  cases c <;> cases a <;> simp only [clientStep] at hs
  case idle.lock path | idle.getattr path =>
    split at hs
    · cases hs
      refine h.client_move hi _ s.dir (fun q hq => .inr (congrArg some (eq_of_update_ne hq).symm))
        (fun q hq => ?_) (by simp) (by simp [ClientPc.pathInode]) (by simp [ClientPc.sharedInode])
      cases hq; exact ⟨by simp, .inr ‹_›⟩
    · cases hs
  case locked.openFile path ok =>
    have take := keep path rfl
    split at hs
    · split at hs <;> cases hs
      · exact h.client_move hi _ s.dir (by simp) take (by simp)
          (fun q ino hq => by cases hq; assumption) (by simp [ClientPc.sharedInode])
      · refine h.client_move hi _ _ (by simp) take (fun q hq => ?_)
          (fun q ino hq => by cases hq; simp) (by simp [ClientPc.sharedInode])
        simp only [CacheDir.create_files, Function.update_apply] at hq
        split at hq
        · subst q; rfl
        · exact absurd rfl hq
    · cases hs
      exact h.client_move hi _ s.dir (by simp) take (by simp) (by simp [ClientPc.pathInode])
        (by simp [ClientPc.sharedInode])
  case opened.sharedLock path ino nonblock err =>
    have take := keep path rfl
    have fail : GcInv t { s with clients := s.clients.set i (.failed path) } :=
      h.client_move hi s.owner s.dir (by simp) take (by simp) (by simp [ClientPc.pathInode])
        (by simp [ClientPc.sharedInode])
    split at hs
    · cases hs; exact fail
    · split at hs
      · split at hs
        · cases hs; exact fail
        · cases hs
      · cases hs
        refine h.client_move hi _ s.dir (by simp) take (by simp)
          (fun q ino' hq => by cases hq; exact h.client_inode i _ path ino hi rfl)
          (fun ino' hino' hsh => ?_)
        cases hsh
        exact ‹¬_› hino'
  case holding.release path ino =>
    cases hs
    exact h.client_move hi _ s.dir (fun q hq => .inl (congrArg some (eq_of_update_ne hq).symm))
      (by simp [ClientPc.mutexPath]) (by simp) (by simp [ClientPc.pathInode])
      (fun ino' hino' => h.exclusive ino' hino' (.holding path ino) mem)
  case failed.release path | getattr.release path =>
    cases hs
    exact h.client_move hi _ s.dir (fun q hq => .inl (congrArg some (eq_of_update_ne hq).symm))
      (by simp [ClientPc.mutexPath]) (by simp) (by simp [ClientPc.pathInode])
      (by simp [ClientPc.sharedInode])
  case using.write ino =>
    cases hs
    exact ⟨h.1, h.2, h.3, h.4, h.5, h.6, h.7⟩
  case using.close ino =>
    cases hs
    exact h.client_move hi s.owner s.dir (by simp) (by simp [ClientPc.mutexPath]) (by simp)
      (by simp [ClientPc.pathInode]) (by simp [ClientPc.sharedInode])
  all_goals cases hs

/-! ### Worker steps -/

theorem justified_at (h : GcInv t s) {w : WorkerPc} (hw : s.worker = w) :
    w.Justified t s.reached s.dir :=
  hw ▸ h.justified

theorem worker_move (h : GcInv t s) (w : WorkerPc) (hm : w.mutexPath = s.worker.mutexPath)
    (hi : ∀ p ino, w.pathInode = some (p, ino) → s.dir.files p = some ino)
    (he : ∀ ino, w.exclusiveInode = some ino → ∀ c ∈ s.clients, c.sharedInode ≠ some ino)
    (hj : w.Justified t s.reached s.dir) (hq : w.inspected = s.worker.inspected) :
    GcInv t { s with worker := w } :=
  ⟨fun p hp => h.worker_mutex p (hm ▸ hp), h.client_mutex, hi, h.client_inode, he, hj,
    fun f hf => h.inspected f (hq ▸ hf)⟩

theorem peek_inv (h : GcInv t s) {file : Candidate} {rest : List Candidate}
    (hq : s.queue = file :: rest) : GcInv t { s with worker := .peeked file } :=
  ⟨by simp [WorkerPc.mutexPath], h.client_mutex, by simp [WorkerPc.pathInode], h.client_inode,
    by simp [WorkerPc.exclusiveInode], trivial, by simp [WorkerPc.inspected, hq]⟩

theorem sample_inv (h : GcInv t s) {file : Candidate} (hw : s.worker = .peeked file) :
    GcInv t { s with worker := (if t < s.clock - file.closedTime ∨ s.reached = true
      then .eligible file s.clock else .sleeping) } := by
  have hq := h.inspected file (by rw [hw]; rfl)
  split
  · exact ⟨by simp [WorkerPc.mutexPath], h.client_mutex, by simp [WorkerPc.pathInode],
      h.client_inode, by simp [WorkerPc.exclusiveInode], Or.symm ‹_›,
      by simpa [WorkerPc.inspected] using hq⟩
  · exact ⟨by simp [WorkerPc.mutexPath], h.client_mutex, by simp [WorkerPc.pathInode],
      h.client_inode, by simp [WorkerPc.exclusiveInode], trivial, by simp [WorkerPc.inspected]⟩

theorem probe_inv (h : GcInv t s) (r : Bool) :
    (s.worker = .sleeping → GcInv t { s with reached := r, worker := .top }) ∧
    ∀ {file ino}, s.worker = .probing file ino →
      GcInv t { s with reached := r, worker := .closing file ino .unlinked } := by
  refine ⟨fun _ => ⟨by simp [WorkerPc.mutexPath], h.client_mutex, by simp [WorkerPc.pathInode],
    h.client_inode, by simp [WorkerPc.exclusiveInode], trivial, by simp [WorkerPc.inspected]⟩,
    fun hw => ⟨fun p hp => h.worker_mutex p (by rw [hw]; exact hp), h.client_mutex,
      by simp [WorkerPc.pathInode], h.client_inode, by simp [WorkerPc.exclusiveInode], trivial,
      fun f hf => h.inspected f (by rw [hw]; exact hf)⟩⟩

theorem acquire_inv (h : GcInv t s) {file : Candidate} {now : Int}
    (hw : s.worker = .eligible file now) (hfree : s.owner file.path = none) :
    GcInv t { s with owner := Function.update s.owner file.path (some .worker),
                     worker := .locked file now } := by
  have hj := h.justified_at hw
  refine ⟨fun p hp => ?_, fun j c p hj hp => ?_, by simp [WorkerPc.pathInode], h.client_inode,
    by simp [WorkerPc.exclusiveInode], hj, fun f hf => h.inspected f (by rw [hw]; exact hf)⟩
  · cases hp; simp
  · have hown := h.client_mutex j c p hj hp
    have hne : p ≠ file.path := by rintro rfl; simp [hfree] at hown
    simpa [Function.update_noteq hne] using hown

theorem stat_inv (h : GcInv t s) {file : Candidate} {now : Int} (hw : s.worker = .locked file now)
    (garbage : Int × Int) :
    let attrs := (s.dir.files file.path).map s.dir.times
    let buf := attrs.getD garbage
    GcInv t { s with worker :=
      (if (t < now - buf.1 ∧ t < now - buf.2) ∨ s.reached = true then .opening file now attrs
      else .popping file .fresh) } := by
  intro attrs buf
  have first : s.reached = true ∨ t < now - file.closedTime := h.justified_at hw
  split
  · rename_i hstale
    refine h.worker_move _ (by rw [hw]; rfl) (by simp [WorkerPc.pathInode])
      (by simp [WorkerPc.exclusiveInode]) ⟨first, fun m c hmc => ?_, fun hn => ?_⟩ (by rw [hw]; rfl)
    · have hbuf : buf = (m, c) := by simp [buf, hmc]
      rw [hbuf] at hstale
      exact hstale.symm
    · simpa [attrs] using hn
  · exact h.worker_move _ (by rw [hw]; rfl) (by simp [WorkerPc.pathInode])
      (by simp [WorkerPc.exclusiveInode]) trivial (by rw [hw]; rfl)

theorem openFile_inv (h : GcInv t s) {file : Candidate} {now : Int} {attrs : Option (Int × Int)}
    (hw : s.worker = .opening file now attrs) (ok : Bool) :
    GcInv t { s with worker :=
      (match s.dir.files file.path, ok with
      | some ino, true => .flocking file now attrs ino
      | _, _ => .popping file .notOpened) } := by
  have hj := h.justified_at hw
  split
  · rename_i ino hfile
    obtain ⟨⟨m, c⟩, hmc⟩ : ∃ mc : Int × Int, attrs = some mc :=
      Option.ne_none_iff_exists'.mp fun hn => by simp [hj.2.2 hn] at hfile
    refine h.worker_move _ (by rw [hw]; rfl) (fun p ino' hp => ?_)
      (by simp [WorkerPc.exclusiveInode]) ⟨hj.1, m, c, hmc, hj.2.1 m c hmc⟩ (by rw [hw]; rfl)
    cases hp; exact hfile
  · exact h.worker_move _ (by rw [hw]; rfl) (by simp [WorkerPc.pathInode])
      (by simp [WorkerPc.exclusiveInode]) trivial (by rw [hw]; rfl)

theorem flock_inv (h : GcInv t s) {file : Candidate} {now : Int} {attrs : Option (Int × Int)}
    {ino : Nat} (hw : s.worker = .flocking file now attrs ino) (err : Option Int) :
    GcInv t { s with worker :=
      (match err with
      | some e => .closing file ino (if e = EWOULDBLOCK then .wouldBlock else .flockFailed e)
      | none =>
        if s.clients.any (·.sharedInode == some ino) then .closing file ino .wouldBlock
        else .unlinking file now attrs ino) } := by
  have hj := h.justified_at hw
  have closing : ∀ o, GcInv t { s with worker := .closing file ino o } := fun o =>
    h.worker_move _ (by rw [hw]; rfl) (by simp [WorkerPc.pathInode])
      (by simp [WorkerPc.exclusiveInode]) trivial (by rw [hw]; rfl)
  split
  · exact closing _
  · split
    · exact closing _
    · refine h.worker_move _ (by rw [hw]; rfl) (fun p ino' hp => h.worker_inode p ino' (hw ▸ hp))
        (fun ino' hino' c hc hsh => ?_) hj (by rw [hw]; rfl)
      cases hino'
      exact ‹¬_› (List.any_eq_true.mpr ⟨c, hc, by simp [hsh]⟩)

theorem unlink_inv (h : GcInv t s) {file : Candidate} {now : Int} {attrs : Option (Int × Int)}
    {ino : Nat} (hw : s.worker = .unlinking file now attrs ino) :
    GcInv t { s with dir := s.dir.unlink file.path, worker := .unlocking file ino } := by
  have hown : s.owner file.path = some .worker := h.worker_mutex _ (by rw [hw]; rfl)
  refine ⟨fun p hp => h.worker_mutex p (by rw [hw]; exact hp), h.client_mutex,
    by simp [WorkerPc.pathInode], fun j c p ino' hj hp => ?_,
    fun ino' hino' => h.exclusive ino' (by rw [hw]; exact hino'), trivial,
    fun f hf => h.inspected f (by rw [hw]; exact hf)⟩
  have hne : p ≠ file.path := by
    rintro rfl
    simpa [hown] using h.client_mutex j c _ hj (ClientPc.mutexPath_of_pathInode hp)
  simpa [Function.update_noteq hne] using h.client_inode j c p ino' hj hp

theorem release_inv (h : GcInv t s) {file : Candidate} (hw : s.worker = .releasing file) :
    GcInv t { s with owner := Function.update s.owner file.path none, worker := .top } := by
  have hown : s.owner file.path = some .worker := h.worker_mutex _ (by rw [hw]; rfl)
  refine ⟨by simp [WorkerPc.mutexPath], fun j c p hj hp => ?_, by simp [WorkerPc.pathInode],
    h.client_inode, by simp [WorkerPc.exclusiveInode], trivial, by simp [WorkerPc.inspected]⟩
  have hcl := h.client_mutex j c p hj hp
  have hne : p ≠ file.path := by rintro rfl; simp [hown] at hcl
  simpa [Function.update_noteq hne] using hcl

section
variable {P : Type} [LinearOrder P] {cfg : GcConfig P}

theorem gcStep_inv {s s' : GcState} {a : Action P} (h : GcInv cfg.timeout s)
    (hs : gcStep cfg s a = some s') : GcInv cfg.timeout s' := by
  cases a <;> simp only [gcStep] at hs
  case tick => cases hs; exact ⟨h.1, h.2, h.3, h.4, h.5, h.6, h.7⟩
  case addFile path =>
    cases hs; exact ⟨h.1, h.2, h.3, h.4, h.5, h.6, fun f hf => by simp [h.7 f hf]⟩
  case peek =>
    split at hs <;> cases hs
    · exact h
    · exact h.peek_inv ‹_›
  case sample => split at hs <;> cases hs; exact h.sample_inv ‹_›
  case probe used =>
    split at hs <;> cases hs
    · exact (h.probe_inv _).1 ‹_›
    · exact (h.probe_inv _).2 ‹_›
  case acquire =>
    split at hs
    · split at hs <;> cases hs; exact h.acquire_inv ‹_› ‹_›
    · cases hs
  case stat => split at hs <;> cases hs; exact h.stat_inv ‹_› _
  case openFile => split at hs <;> cases hs; exact h.openFile_inv ‹_› _
  case flock => split at hs <;> cases hs; exact h.flock_inv ‹_› _
  case unlink => split at hs <;> cases hs; exact h.unlink_inv ‹_›
  case unlock | close =>
    split at hs <;> cases hs
    exact h.worker_move _ (by simp [*, WorkerPc.mutexPath]) (by simp [WorkerPc.pathInode])
      (by simp [WorkerPc.exclusiveInode]) trivial (by simp [*, WorkerPc.inspected])
  case pop =>
    split at hs <;> cases hs
    exact ⟨fun p hp => h.worker_mutex p (by simpa [*, WorkerPc.mutexPath] using hp), h.client_mutex,
      by simp [WorkerPc.pathInode], h.client_inode, by simp [WorkerPc.exclusiveInode], trivial,
      by simp [WorkerPc.inspected]⟩
  case release => split at hs <;> cases hs; exact h.release_inv ‹_›
  case client i a =>
    split at hs
    · exact h.clientStep_inv ‹_› hs
    · cases hs

end

end GcInv

section
variable {P : Type} [LinearOrder P] {cfg : GcConfig P}

theorem gcInit_inv (t : Int) (clock : Int) (dir : CacheDir) (n : Nat) :
    GcInv t (gcInit clock dir n) := by
  have idle : ∀ (i : Nat) (c : ClientPc), (List.replicate n ClientPc.idle)[i]? = some c →
      c = .idle := fun i c hc => by
    rw [List.getElem?_replicate] at hc; split at hc <;> simp_all
  refine ⟨by simp [gcInit, WorkerPc.mutexPath], fun i c p hc hp => ?_, by simp [gcInit, WorkerPc.pathInode],
    fun i c p ino hc hp => ?_, by simp [gcInit, WorkerPc.exclusiveInode], trivial,
    by simp [gcInit, WorkerPc.inspected]⟩
  · cases idle i c hc; cases hp
  · cases idle i c hc; cases hp

/-- The invariant holds in every reachable state. -/
theorem GcReachable.inv {s : GcState} (h : GcReachable cfg s) : GcInv cfg.timeout s := by
  induction h with
  | init clock dir n => exact gcInit_inv _ clock dir n
  | step a _ hs ih => exact ih.gcStep_inv hs

theorem gcRun_reachable {s s' : GcState} {acts : List (Action P)} {evs : List QueueEvent}
    (h : GcReachable cfg s) (hrun : gcRun cfg s acts = some (s', evs)) : GcReachable cfg s' := by
  induction acts generalizing s evs with
  | nil => cases hrun; exact h
  | cons a acts ih =>
    simp only [gcRun, Option.bind_eq_bind, Option.bind_eq_some] at hrun
    obtain ⟨s₁, hs₁, ⟨s₂, evs₂⟩, hrun, heq⟩ := hrun
    cases heq
    exact ih (.step a h hs₁) hrun

end

end Eviction

end BlobFuse
