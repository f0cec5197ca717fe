import BlobFuse.DiskSpace
import BlobFuse.Storage
import Mathlib.Logic.Function.Basic

/-! `gc_cache`: the eviction queue `m_cleanup`, its producer `add_file`, the worker
`run_gc_cache`, the threads that open a cache file under its path's `file_lock_map` mutex,
lock it through `shared_lock_file`, use it and close it, and `azs_getattr`, which holds the
same mutex across its lookup. One step is one action on
shared state by one thread; an action's arguments are what the environment decides: the
clock, `statvfs`, whether `open` succeeds, a `flock` failing for a reason other than a
conflicting lock. An open file description lives in the program counter of the thread
that holds it, so the kernel's `flock` table is read off the threads. -/
namespace BlobFuse

namespace Eviction

/-- `file_to_delete`: a path and the time it was closed. -/
structure Candidate where
  path : String
  closedTime : Int
  deriving DecidableEq, Repr

/-- The cache directory: the inode each path names, and each inode's `st_mtime` and
`st_ctime`. A path names at most one inode and inodes are never reused. -/
structure CacheDir where
  files : String → Option Nat
  times : Nat → Int × Int
  nextInode : Nat
  files_lt : ∀ p ino, files p = some ino → ino < nextInode
  files_inj : ∀ p q ino, files p = some ino → files q = some ino → p = q

namespace CacheDir

/-- `unlink` of a path. -/
def unlink (d : CacheDir) (path : String) : CacheDir where
  files := Function.update d.files path none
  times := d.times
  nextInode := d.nextInode
  files_lt p ino h := d.files_lt p ino (by
    rw [Function.update_apply] at h; split at h
    · cases h
    · exact h)
  files_inj p q ino hp hq := by
    rw [Function.update_apply] at hp hq
    split at hp
    · cases hp
    · split at hq
      · cases hq
      · exact d.files_inj p q ino hp hq

/-- `open` with `O_CREAT` of a path that names no file: a fresh inode, stamped `now`. -/
def create (d : CacheDir) (path : String) (now : Int) : CacheDir where
  files := Function.update d.files path (some d.nextInode)
  times := Function.update d.times d.nextInode (now, now)
  nextInode := d.nextInode + 1
  files_lt p ino h := by
    rw [Function.update_apply] at h; split at h
    · cases h; exact Nat.lt_succ_self _
    · exact Nat.lt_succ_of_lt (d.files_lt p ino h)
  files_inj p q ino hp hq := by
    rw [Function.update_apply] at hp hq
    split at hp <;> split at hq
    · simp_all
    · cases hp; exact absurd (d.files_lt q _ hq) (Nat.lt_irrefl _)
    · cases hq; exact absurd (d.files_lt p _ hp) (Nat.lt_irrefl _)
    · exact d.files_inj p q ino hp hq

/-- A write through an open description: the inode's times become `now`. -/
def touch (d : CacheDir) (ino : Nat) (now : Int) : CacheDir :=
  { d with times := Function.update d.times ino (now, now) }

/-- The cache directory with no file. -/
def empty : CacheDir where
  files _ := none
  times _ := (0, 0)
  nextInode := 0
  files_lt _ _ h := nomatch h
  files_inj _ _ _ h := nomatch h

@[simp] theorem unlink_files (d : CacheDir) (path : String) :
    (d.unlink path).files = Function.update d.files path none := rfl

@[simp] theorem create_files (d : CacheDir) (path : String) (now : Int) :
    (d.create path now).files = Function.update d.files path (some d.nextInode) := rfl

@[simp] theorem touch_files (d : CacheDir) (ino : Nat) (now : Int) :
    (d.touch ino now).files = d.files := rfl

end CacheDir

/-- The owner of a `file_lock_map` mutex. -/
inductive Thread where
  | worker
  | client (i : Nat)
  deriving DecidableEq, Repr

/-- How the eligible branch ended for the candidate before `pop_front`. -/
inductive Outcome where
  | unlinked
  | fresh
  | notOpened
  | wouldBlock
  | flockFailed (errno : Int)
  deriving DecidableEq, Repr

/-- Where `run_gc_cache` is: the candidate it peeked, the `now` it sampled, what `stat`
gave (`none` when it failed), the inode of its open descriptor. -/
inductive WorkerPc where
  | top
  | peeked (file : Candidate)
  | sleeping
  | eligible (file : Candidate) (now : Int)
  | locked (file : Candidate) (now : Int)
  | opening (file : Candidate) (now : Int) (attrs : Option (Int × Int))
  | flocking (file : Candidate) (now : Int) (attrs : Option (Int × Int)) (ino : Nat)
  | unlinking (file : Candidate) (now : Int) (attrs : Option (Int × Int)) (ino : Nat)
  | unlocking (file : Candidate) (ino : Nat)
  | probing (file : Candidate) (ino : Nat)
  | closing (file : Candidate) (ino : Nat) (outcome : Outcome)
  | popping (file : Candidate) (outcome : Outcome)
  | releasing (file : Candidate)
  deriving DecidableEq, Repr

/-- Where a thread opening a cache file is: holding the path's mutex (`locked`, `opened`,
`failed`, `holding`), with an unlocked descriptor (`opened`), with the shared lock
(`holding`, `using`). -/
inductive ClientPc where
  | idle
  | locked (path : String)
  | opened (path : String) (ino : Nat)
  | failed (path : String)
  | holding (path : String) (ino : Nat)
  | using (ino : Nat)
  /-- In `azs_getattr`, between its `lock_guard` on the path's mutex and its return: the
  `access`, `lstat` and remote calls it makes meanwhile change no state of this model. -/
  | getattr (path : String)
  deriving DecidableEq, Repr

namespace WorkerPc

/-- The path whose mutex the worker holds. -/
def mutexPath : WorkerPc → Option String
  | .locked f _ | .opening f _ _ | .flocking f _ _ _ | .unlinking f _ _ _ | .unlocking f _
  | .probing f _ | .closing f _ _ | .popping f _ | .releasing f => some f.path
  | _ => none

/-- The candidate from the peek up to the pop. -/
def inspected : WorkerPc → Option Candidate
  | .peeked f | .eligible f _ | .locked f _ | .opening f _ _ | .flocking f _ _ _
  | .unlinking f _ _ _ | .unlocking f _ | .probing f _ | .closing f _ _ | .popping f _ => some f
  | _ => none

/-- The worker's descriptor and its path, while the path still names its inode. -/
def pathInode : WorkerPc → Option (String × Nat)
  | .flocking f _ _ ino | .unlinking f _ _ ino => some (f.path, ino)
  | _ => none

/-- The inode the worker holds the exclusive lock of. -/
def exclusiveInode : WorkerPc → Option Nat
  | .unlinking _ _ _ ino | .unlocking _ ino => some ino
  | _ => none

end WorkerPc

namespace ClientPc

def mutexPath : ClientPc → Option String
  | .locked p | .opened p _ | .failed p | .holding p _ | .getattr p => some p
  | _ => none

def pathInode : ClientPc → Option (String × Nat)
  | .opened p ino | .holding p ino => some (p, ino)
  | _ => none

/-- The inode of the thread's open descriptor. -/
def openInode : ClientPc → Option Nat
  | .opened _ ino | .holding _ ino | .using ino => some ino
  | _ => none

/-- The inode the thread holds a shared lock of. -/
def sharedInode : ClientPc → Option Nat
  | .holding _ ino | .using ino => some ino
  | _ => none

theorem openInode_of_sharedInode {c : ClientPc} {ino : Nat} (h : c.sharedInode = some ino) :
    c.openInode = some ino := by
  cases c <;> simp_all [sharedInode, openInode]

end ClientPc

/-- `file_cache_timeout_in_seconds` and the two disk thresholds, declared in `blobfuse.h`. -/
structure GcConfig (P : Type) where
  timeout : Int
  high : P
  low : P

structure GcState where
  clock : Int
  queue : List Candidate
  reached : Bool
  dir : CacheDir
  owner : String → Option Thread
  worker : WorkerPc
  clients : List ClientPc

/-- An action on a client thread's descriptor. `sharedLock` is `shared_lock_file`:
`nonblock` is `O_NONBLOCK` in its flags, `err` a failure of `flock` for a reason other than
a conflicting lock. -/
inductive ClientAction where
  | lock (path : String)
  /-- `azs_getattr`'s `lock_guard` on the path's mutex. -/
  | getattr (path : String)
  | openFile (ok : Bool)
  | sharedLock (nonblock : Bool) (err : Option Int)
  | release
  | write
  | close
  deriving DecidableEq, Repr

inductive Action (P : Type) where
  | tick
  | addFile (path : String)
  | peek
  | sample
  | probe (used : Option P)
  | acquire
  | stat (garbage : Int × Int)
  | openFile (ok : Bool)
  | flock (err : Option Int)
  | unlink
  | unlock
  | close
  | pop
  | release
  | client (i : Nat) (a : ClientAction)
  deriving DecidableEq, Repr

/-- A thread opening a cache file: the path's mutex, `open` (creating the file if missing),
`shared_lock_file`, the mutex released, writes, `close`. A blocking `flock` facing the
worker's exclusive lock waits: no step. A thread in `azs_getattr` takes the path's mutex and
releases it when it returns. -/
def clientStep (s : GcState) (i : Nat) : ClientPc → ClientAction → Option GcState
  | .idle, .lock path =>
    if s.owner path = none then
      some { s with owner := Function.update s.owner path (some (.client i)),
                    clients := s.clients.set i (.locked path) }
    else none
  | .idle, .getattr path =>
    if s.owner path = none then
      some { s with owner := Function.update s.owner path (some (.client i)),
                    clients := s.clients.set i (.getattr path) }
    else none
  | .locked path, .openFile ok =>
    if ok then
      match s.dir.files path with
      | some ino => some { s with clients := s.clients.set i (.opened path ino) }
      | none => some { s with dir := s.dir.create path s.clock,
                              clients := s.clients.set i (.opened path s.dir.nextInode) }
    else some { s with clients := s.clients.set i (.failed path) }
  | .opened path ino, .sharedLock nonblock err =>
    match err with
    | some _ => some { s with clients := s.clients.set i (.failed path) }
    | none =>
      if s.worker.exclusiveInode = some ino then
        if nonblock then some { s with clients := s.clients.set i (.failed path) } else none
      else some { s with clients := s.clients.set i (.holding path ino) }
  | .holding path ino, .release =>
    some { s with owner := Function.update s.owner path none,
                  clients := s.clients.set i (.using ino) }
  | .failed path, .release | .getattr path, .release =>
    some { s with owner := Function.update s.owner path none, clients := s.clients.set i .idle }
  | .using ino, .write => some { s with dir := s.dir.touch ino s.clock }
  | .using _, .close => some { s with clients := s.clients.set i .idle }
  | _, _ => none

section
variable {P : Type} [LinearOrder P] (cfg : GcConfig P)

/-- One step: `add_file`, a step of `run_gc_cache`, or a step of a client thread. -/
def gcStep (s : GcState) : Action P → Option GcState
  | .tick => some { s with clock := s.clock + 1 }
  | .addFile path => some { s with queue := s.queue ++ [⟨path, s.clock⟩] }
  | .peek =>
    match s.worker, s.queue with
    | .top, [] => some s
    | .top, file :: _ => some { s with worker := .peeked file }
    | _, _ => none
  | .sample =>
    match s.worker with
    | .peeked file =>
      some { s with worker :=
        if cfg.timeout < s.clock - file.closedTime ∨ s.reached = true then .eligible file s.clock
        else .sleeping }
    | _ => none
  | .probe used =>
    match s.worker with
    | .sleeping =>
      some { s with reached := checkDiskSpace cfg.high cfg.low s.reached used, worker := .top }
    | .probing file ino =>
      some { s with reached := checkDiskSpace cfg.high cfg.low s.reached used,
                    worker := .closing file ino .unlinked }
    | _ => none
  | .acquire =>
    match s.worker with
    | .eligible file now =>
      if s.owner file.path = none then
        some { s with owner := Function.update s.owner file.path (some .worker),
                      worker := .locked file now }
      else none
    | _ => none
  | .stat garbage =>
    match s.worker with
    | .locked file now =>
      let attrs := (s.dir.files file.path).map s.dir.times
      let buf := attrs.getD garbage
      let stale := (cfg.timeout < now - buf.1 ∧ cfg.timeout < now - buf.2) ∨ s.reached = true
      some { s with worker := if stale then .opening file now attrs else .popping file .fresh }
    | _ => none
  | .openFile ok =>
    match s.worker with
    | .opening file now attrs =>
      some { s with worker :=
        match s.dir.files file.path, ok with
        | some ino, true => .flocking file now attrs ino
        | _, _ => .popping file .notOpened }
    | _ => none
  | .flock err =>
    match s.worker with
    | .flocking file now attrs ino =>
      some { s with worker :=
        match err with
        | some e => .closing file ino (if e = EWOULDBLOCK then .wouldBlock else .flockFailed e)
        | none =>
          if s.clients.any (·.sharedInode == some ino) then .closing file ino .wouldBlock
          else .unlinking file now attrs ino }
    | _ => none
  | .unlink =>
    match s.worker with
    | .unlinking file _ _ ino =>
      some { s with dir := s.dir.unlink file.path, worker := .unlocking file ino }
    | _ => none
  | .unlock =>
    match s.worker with
    | .unlocking file ino => some { s with worker := .probing file ino }
    | _ => none
  | .close =>
    match s.worker with
    | .closing file _ o => some { s with worker := .popping file o }
    | _ => none
  | .pop =>
    match s.worker with
    | .popping file _ => some { s with queue := s.queue.tail, worker := .releasing file }
    | _ => none
  | .release =>
    match s.worker with
    | .releasing file =>
      some { s with owner := Function.update s.owner file.path none, worker := .top }
    | _ => none
  | .client i a =>
    match s.clients[i]? with
    | some c => clientStep s i c a
    | none => none

/-- A start: no candidate queued, the flag clear, no mutex held, every thread at its
start, any cache directory. -/
def gcInit (clock : Int) (dir : CacheDir) (clients : Nat) : GcState :=
  { clock, queue := [], reached := false, dir, owner := fun _ => none, worker := .top,
    clients := List.replicate clients .idle }

inductive GcReachable : GcState → Prop
  | init (clock : Int) (dir : CacheDir) (clients : Nat) : GcReachable (gcInit clock dir clients)
  | step {s s' : GcState} (a : Action P) : GcReachable s → gcStep cfg s a = some s' →
      GcReachable s'

/-- What a step does to the queue: a candidate added, or popped after an outcome. -/
inductive QueueEvent where
  | added (c : Candidate)
  | popped (c : Candidate) (o : Outcome)
  deriving DecidableEq, Repr

def queueEvent (s : GcState) : Action P → Option QueueEvent
  | .addFile path => some (.added ⟨path, s.clock⟩)
  | .pop =>
    match s.worker with
    | .popping file o => some (.popped file o)
    | _ => none
  | _ => none

/-- A run of actions, with the queue events it shows; `none` when an action is not
enabled. -/
def gcRun : GcState → List (Action P) → Option (GcState × List QueueEvent)
  | s, [] => some (s, [])
  | s, a :: acts => do
    let s' ← gcStep cfg s a
    let (s'', evs) ← gcRun s' acts
    return (s'', (queueEvent s a).toList ++ evs)

end

end Eviction

end BlobFuse
