import Mathlib.Data.List.Basic
import Mathlib.Order.Lattice

/-! `gc_cache::check_disk_space`: the cache disk's usage against the high and low
thresholds, read against the current `disk_threshold_reached`. The eviction worker assigns
its result back to that flag after every probe, so the flag follows a hysteresis. -/
namespace BlobFuse

section
variable {P : Type} [LinearOrder P] (high low : P)

/-- `check_disk_space`: `probe` is the used percentage, `none` when `statvfs` fails (a disk
of no blocks, whose percentage is NaN and fails both comparisons, reads the same). -/
def checkDiskSpace (reached : Bool) (probe : Option P) : Bool :=
  match probe with
  | none => false
  | some used =>
    if high ≤ used ∧ !reached then true
    else if low ≤ used ∧ reached then true
    else false

theorem checkDiskSpace_some (hlh : low ≤ high) (reached : Bool) (used : P) :
    checkDiskSpace high low reached (some used) =
      (decide (high ≤ used) || reached && decide (low ≤ used)) := by
  by_cases hh : high ≤ used
  · cases reached <;> simp [checkDiskSpace, hh, le_trans hlh hh]
  · cases reached <;> simp [checkDiskSpace, hh]

/-- The flag after a run of probes from `false`, as the worker assigns it. -/
def diskThresholdAfter (probes : List (Option P)) : Bool :=
  probes.foldl (checkDiskSpace high low) false

@[simp]
theorem diskThresholdAfter_concat (probes : List (Option P)) (p : Option P) :
    diskThresholdAfter high low (probes ++ [p]) =
      checkDiskSpace high low (diskThresholdAfter high low probes) p := by
  simp [diskThresholdAfter]

/-- Some probe reached the high threshold, and every probe since, that one included,
succeeded at or above the low threshold. -/
def ReachedSince (probes : List (Option P)) : Prop :=
  ∃ pre u post, probes = pre ++ some u :: post ∧ high ≤ u ∧
    ∀ q ∈ some u :: post, ∃ v, q = some v ∧ low ≤ v

theorem reachedSince_nil : ¬ ReachedSince high low [] := by
  rintro ⟨pre, u, post, h, -⟩
  simp at h

theorem reachedSince_concat (hlh : low ≤ high) (probes : List (Option P)) (p : Option P) :
    ReachedSince high low (probes ++ [p]) ↔
      ∃ x, p = some x ∧ (high ≤ x ∨ (ReachedSince high low probes ∧ low ≤ x)) := by
  constructor
  · rintro ⟨pre, u, post, h, hu, hall⟩
    rcases List.eq_nil_or_concat post with rfl | ⟨post, q, rfl⟩
    · obtain ⟨-, hp⟩ := List.append_inj' h rfl
      exact ⟨u, List.singleton_inj.mp hp, .inl hu⟩
    · simp only [List.concat_eq_append] at h hall
      rw [← List.cons_append, ← List.append_assoc] at h
      obtain ⟨rfl, hp⟩ := List.append_inj' h rfl
      obtain ⟨x, rfl, hlow⟩ := hall p (by simp [List.singleton_inj.mp hp])
      exact ⟨x, rfl, .inr ⟨⟨pre, u, post, rfl, hu, fun q hq => hall q (List.mem_append_left _ hq)⟩,
        hlow⟩⟩
  · rintro ⟨x, rfl, hx | ⟨⟨pre, u, post, rfl, hu, hall⟩, hlow⟩⟩
    · exact ⟨probes, x, [], rfl, hx, by simpa using le_trans hlh hx⟩
    · refine ⟨pre, u, post ++ [some x], by simp, hu, fun q hq => ?_⟩
      rcases List.mem_append.mp (List.cons_append _ _ _ ▸ hq) with hq | hq
      · exact hall q hq
      · exact ⟨x, List.mem_singleton.mp hq, hlow⟩

/-- With `low_threshold ≤ high_threshold`, after every sequence of probes from `false`,
`disk_threshold_reached` is set exactly when some probe reached the high threshold and
every probe since succeeded at or above the low one; a probe between the two thresholds
leaves the flag as it was. -/
theorem diskThreshold_hysteresis (hlh : low ≤ high) (probes : List (Option P)) :
    (diskThresholdAfter high low probes = true ↔ ReachedSince high low probes) ∧
    ∀ u, low ≤ u → u < high →
      diskThresholdAfter high low (probes ++ [some u]) = diskThresholdAfter high low probes := by
  refine ⟨?_, fun u hlow hhigh => ?_⟩
  · induction probes using List.reverseRecOn with
    | nil => simp [diskThresholdAfter, reachedSince_nil]
    | append_singleton probes p ih =>
      rw [diskThresholdAfter_concat, reachedSince_concat high low hlh, ← ih]
      cases p with
      | none => simp [checkDiskSpace]
      | some x => simp [checkDiskSpace_some high low hlh]
  · simp [checkDiskSpace_some high low hlh, not_le.mpr hhigh, hlow]

/-- Thresholds 50 and 80: a probe at 85 sets the flag, one at 60 keeps it, one at 40 or a
failed probe clears it. -/
theorem diskThreshold_hysteresis_percent :
    (50 : Nat) ≤ 80 ∧
      (diskThresholdAfter 80 50 [some 85, some 60] = true ↔
        ReachedSince 80 50 [some 85, some (60 : Nat)]) :=
  ⟨by decide, (diskThreshold_hysteresis 80 50 (by decide) [some 85, some 60]).1⟩

end

end BlobFuse
