import BlobFuse.Delivery
import BlobFuse.KeySet

/-! `is_directory_empty`: the directory blob's property, then its own paging loop over
`list_blobs_hierarchical` under `dir_name/`, two entries a page, with a legacy marker blob
allowed once. The loop does not read `skip_first` repeats the way
`list_all_blobs_hierarchical` does. -/
namespace BlobFuse

/-- `D_NOTEXIST`, `D_EMPTY`, `D_NOTEMPTY`: declared in `blobfuse.h`, so parameters. -/
structure DirectoryCodes where
  notExist : Int
  empty : Int
  notEmpty : Int

/-- Modelled from the spec: `former_directory_signifier` (declared in `blobfuse.h`), the
suffix of the legacy marker blob of an empty directory, the `.directory` blob. -/
def formerDirectorySignifier : String := ".directory"

/-- The test on a page's single entry: a blob named longer than the signifier and ending
with it. -/
def isFormerDirectoryBlob (item : ListItem) : Bool :=
  !item.isDirectory && decide (formerDirectorySignifier.utf8ByteSize < item.name.utf8ByteSize) &&
    formerDirectorySignifier.data.isSuffixOf item.name.data

/-- The locals of `is_directory_empty`'s loop between iterations. -/
structure DirectoryEmptyState where
  continuation : String := ""
  success : Bool := false
  failcount : Nat := 0
  oldDirBlobFound : Bool := false
  deriving DecidableEq, Repr

/-- One iteration on the reply of its call: the code returned from inside the loop, or
the next state. -/
def isDirectoryEmptyStep (codes : DirectoryCodes) (st : DirectoryEmptyState)
    (r : ListResponse) : Except Int DirectoryEmptyState :=
  if r.errno = 0 then
    match r.blobs with
    | [] => .ok { st with success := true, failcount := 0, continuation := r.nextMarker }
    | [item] =>
      if !st.oldDirBlobFound && isFormerDirectoryBlob item then
        .ok { st with success := true, failcount := 0, continuation := r.nextMarker,
                      oldDirBlobFound := true }
      else .error codes.notEmpty
    | _ => .error codes.notEmpty
  else .ok { st with success := false, failcount := st.failcount + 1 }

/-- The loop condition `(continuation.size() > 0 || !success) && failcount < 20`. -/
def isDirectoryEmptyContinues (st : DirectoryEmptyState) : Bool :=
  (st.continuation != "" || !st.success) && decide (st.failcount < maxFailCount)

/-- What `is_directory_empty` returns once its loop ends. -/
def isDirectoryEmptyResult (codes : DirectoryCodes) (dirBlobExists : Bool)
    (st : DirectoryEmptyState) : Int :=
  if !st.success then -1
  else if st.oldDirBlobFound || dirBlobExists then codes.empty else codes.notExist

def isDirectoryEmptyLoop (codes : DirectoryCodes) (dirBlobExists : Bool) :
    DirectoryEmptyState → List Reply → Option (Int × List Reply)
  | st, .list r :: script =>
    match isDirectoryEmptyStep codes st r with
    | .error code => some (code, script)
    | .ok st =>
      if isDirectoryEmptyContinues st then isDirectoryEmptyLoop codes dirBlobExists st script
      else some (isDirectoryEmptyResult codes dirBlobExists st, script)
  | _, _ => none

/-- `is_directory_empty`: `-1` when the property call fails other than by not-found. -/
def isDirectoryEmpty (codes : DirectoryCodes) (script : List Reply) :
    Option (Int × List Reply) :=
  match getBlobProperty script with
  | none => none
  | some (p, script) =>
    if p.errno ≠ 0 ∧ p.errno ≠ 404 ∧ p.errno ≠ ENOENT then some (-1, script)
    else
      isDirectoryEmptyLoop codes
        (p.errno == 0 && p.property.valid && isDirectoryBlob p.property.size p.property.metadata)
        {} script

theorem isDirectoryEmptyLoop_next (st' : DirectoryEmptyState) {codes : DirectoryCodes}
    {d : Bool} {st : DirectoryEmptyState} {r : ListResponse} {script : List Reply}
    (hstep : isDirectoryEmptyStep codes st r = .ok st')
    (hgo : isDirectoryEmptyContinues st' = true) :
    isDirectoryEmptyLoop codes d st (.list r :: script) = isDirectoryEmptyLoop codes d st' script := by
  simp only [isDirectoryEmptyLoop, hstep, hgo, ↓reduceIte]

theorem isDirectoryEmptyLoop_retry {codes : DirectoryCodes} {d : Bool} {st : DirectoryEmptyState}
    {r : ListResponse} (script : List Reply) (herr : r.errno ≠ 0)
    (hrun : st.failcount + 1 < maxFailCount) :
    isDirectoryEmptyLoop codes d st (.list r :: script) =
      isDirectoryEmptyLoop codes d { st with success := false, failcount := st.failcount + 1 }
        script :=
  isDirectoryEmptyLoop_next _ (by simp [isDirectoryEmptyStep, herr])
    (by simp [isDirectoryEmptyContinues, hrun])

theorem isDirectoryEmptyLoop_failures (codes : DirectoryCodes) (d : Bool) (rest : List Reply) :
    ∀ (st : DirectoryEmptyState) (rs : List ListResponse) (r : ListResponse),
      (∀ x ∈ rs ++ [r], x.errno ≠ 0) → st.failcount + rs.length + 1 = maxFailCount →
      isDirectoryEmptyLoop codes d st ((rs ++ [r]).map .list ++ rest) = some (-1, rest)
  | st, [], r, hfail, hlen => by
    have hr := hfail r (by simp)
    have hstop : ¬ st.failcount + 1 < maxFailCount := by simp at hlen; omega
    simp [isDirectoryEmptyLoop, isDirectoryEmptyStep, hr, isDirectoryEmptyContinues, hstop,
      isDirectoryEmptyResult]
  | st, x :: rs, r, hfail, hlen => by
    have hgo : st.failcount + 1 < maxFailCount := by simp at hlen; omega
    rw [List.cons_append, List.map_cons, List.cons_append,
      isDirectoryEmptyLoop_retry _ (hfail x (List.mem_cons_self _ _)) hgo]
    exact isDirectoryEmptyLoop_failures codes d rest _ rs r
      (fun y hy => hfail y (List.mem_cons_of_mem _ hy)) (by simp at hlen ⊢; omega)

theorem isDirectoryEmptyStep_failcount {codes : DirectoryCodes} {st st' : DirectoryEmptyState}
    {r : ListResponse} (h : isDirectoryEmptyStep codes st r = .ok st') :
    st'.failcount = if r.errno = 0 then 0 else st.failcount + 1 := by
  unfold isDirectoryEmptyStep at h
  split at h
  · split at h
    · cases h; simp [*]
    · split at h <;> cases h; simp [*]
    · cases h
  · cases h; simp [*]

theorem isDirectoryEmptyLoop_running {codes : DirectoryCodes} (d d' : Bool) :
    ∀ (st : DirectoryEmptyState) (pre : List ListResponse),
      isDirectoryEmptyLoop codes d' st (pre.map .list) = none →
      ∃ st', st'.failcount = pre.foldl (fun n r => if r.errno = 0 then 0 else n + 1) st.failcount ∧
        ∀ rest, isDirectoryEmptyLoop codes d st (pre.map .list ++ rest) =
          isDirectoryEmptyLoop codes d st' rest
  | st, [], _ => ⟨st, rfl, fun _ => rfl⟩
  | st, r :: pre, hrun => by
    simp only [List.map_cons, isDirectoryEmptyLoop] at hrun
    cases hstep : isDirectoryEmptyStep codes st r with
    | error c => simp [hstep] at hrun
    | ok st₁ =>
      simp only [hstep] at hrun
      by_cases hgo : isDirectoryEmptyContinues st₁ = true
      · rw [if_pos hgo] at hrun
        obtain ⟨st', hfc, heq⟩ := isDirectoryEmptyLoop_running d d' st₁ pre hrun
        refine ⟨st', by rw [hfc, isDirectoryEmptyStep_failcount hstep]; rfl, fun rest => ?_⟩
        rw [List.map_cons, List.cons_append, isDirectoryEmptyLoop_next st₁ hstep hgo, heq]
      · rw [if_neg hgo] at hrun; cases hrun

/-- After any listing replies on which the loop is still running, the 20th listing call in a
row that fails makes `is_directory_empty` return `-1`, whatever its property call answered. -/
theorem isDirectoryEmpty_retries_exhausted (codes : DirectoryCodes) (p : PropertyResponse)
    (pre : List ListResponse) (hrun : isDirectoryEmptyLoop codes false {} (pre.map .list) = none)
    (rs : List ListResponse) (r : ListResponse) (hfail : ∀ x ∈ rs ++ [r], x.errno ≠ 0)
    (hlen : failRun pre + rs.length + 1 = maxFailCount) (rest : List Reply) :
    (isDirectoryEmpty codes (.property p :: ((pre ++ rs ++ [r]).map .list ++ rest))).map (·.1) =
      some (-1) := by
  simp only [isDirectoryEmpty, getBlobProperty_cons]
  split
  · rfl
  · obtain ⟨st', hfc, heq⟩ := isDirectoryEmptyLoop_running _ false {} pre hrun
    rw [List.append_assoc, List.map_append, List.append_assoc, heq,
      isDirectoryEmptyLoop_failures codes _ rest st' rs r hfail (by rw [hfc]; exact hlen)]
    rfl

/-- A first page holding only the legacy marker blob, with a next marker, then nineteen
failures and a twentieth, after a not-found property. -/
theorem isDirectoryEmpty_twenty_failures :
    isDirectoryEmptyLoop ⟨0, 1, 2⟩ false {}
        ([(⟨0, [{ name := "d/.directory" }], "m"⟩ : ListResponse)].map .list) = none ∧
    (∀ x ∈ List.replicate 19 (⟨500, [], ""⟩ : ListResponse) ++ [⟨503, [], ""⟩], x.errno ≠ 0) ∧
    failRun [(⟨0, [{ name := "d/.directory" }], "m"⟩ : ListResponse)] +
      (List.replicate 19 (⟨500, [], ""⟩ : ListResponse)).length + 1 = maxFailCount ∧
    (isDirectoryEmpty ⟨0, 1, 2⟩ (.property ⟨404, {}⟩ ::
      (([(⟨0, [{ name := "d/.directory" }], "m"⟩ : ListResponse)] ++
        List.replicate 19 (⟨500, [], ""⟩ : ListResponse) ++
          [(⟨503, [], ""⟩ : ListResponse)]).map .list ++ []))).map (·.1) =
      some (-1) :=
  ⟨by decide, by decide, rfl, isDirectoryEmpty_retries_exhausted ⟨0, 1, 2⟩ ⟨404, {}⟩
    [⟨0, [{ name := "d/.directory" }], "m"⟩] (by decide) (List.replicate 19 ⟨500, [], ""⟩)
    ⟨503, [], ""⟩ (by decide) rfl []⟩

/-! ### Deliveries without repeats -/

/-- `rs` delivers `L` in pages of at most `n` entries, no page repeating an entry read
before it, failed calls retried fewer than `maxFailCount` times in a row. -/
inductive DeliversPlain (n : Nat) : Nat → List ListItem → List Reply → Prop
  | last {run : Nat} {chunk : List ListItem} :
      chunk.length ≤ n → DeliversPlain n run chunk [.list ⟨0, chunk, ""⟩]
  | page {run : Nat} {chunk L : List ListItem} {rs : List Reply} {marker : String} :
      marker ≠ "" → chunk.length ≤ n → DeliversPlain n 0 L rs →
      DeliversPlain n run (chunk ++ L) (.list ⟨0, chunk, marker⟩ :: rs)
  | retry {run : Nat} {L : List ListItem} {rs : List Reply} (r : ListResponse) :
      r.errno ≠ 0 → run + 1 < maxFailCount → DeliversPlain n (run + 1) L rs →
      DeliversPlain n run L (.list r :: rs)

theorem DeliversPlain.delivers {n run : Nat} {L : List ListItem} {rs : List Reply}
    (h : DeliversPlain n run L rs) (last : Option ListItem) : Delivers n last run L rs := by
  induction h generalizing last with
  | last hlen => exact .last false hlen
  | page hm hlen _ ih => exact .page false hm hlen (ih _)
  | retry r herr hrun _ ih => exact .retry r herr hrun (ih last)

/-- What `is_directory_empty` answers on a listing read whole: not empty from two entries
on, or on one entry that fails the marker test; empty on a marker alone, or on nothing
under a directory blob; not existing otherwise. -/
def directoryState (codes : DirectoryCodes) (dirBlobExists : Bool) : List ListItem → Int
  | [] => if dirBlobExists then codes.empty else codes.notExist
  | [x] => if isFormerDirectoryBlob x then codes.empty else codes.notEmpty
  | _ :: _ :: _ => codes.notEmpty

@[simp] theorem directoryState_append_two (codes : DirectoryCodes) (d : Bool)
    (S : List ListItem) (x y : ListItem) (t : List ListItem) :
    directoryState codes d (S ++ x :: y :: t) = codes.notEmpty := by
  match S with
  | [] | [_] | _ :: _ :: _ => rfl

/-- The entries read before a page without a decision: none, or one marker. -/
def MarkerSeen (S : List ListItem) (found : Bool) : Prop :=
  S = [] ∧ found = false ∨ ∃ m, S = [m] ∧ isFormerDirectoryBlob m = true ∧ found = true

theorem directoryState_of_markerSeen (codes : DirectoryCodes) (d : Bool) {T : List ListItem}
    {found : Bool} (h : MarkerSeen T found) :
    directoryState codes d T = if found || d then codes.empty else codes.notExist := by
  rcases h with ⟨rfl, rfl⟩ | ⟨m, rfl, hm, rfl⟩ <;> simp [directoryState, *]

theorem isDirectoryEmptyStep_page (codes : DirectoryCodes) (d : Bool) {st : DirectoryEmptyState}
    {S : List ListItem} (hS : MarkerSeen S st.oldDirBlobFound) (chunk : List ListItem)
    (marker : String) :
    (isDirectoryEmptyStep codes st ⟨0, chunk, marker⟩ = .error codes.notEmpty ∧
      ∀ L, directoryState codes d (S ++ chunk ++ L) = codes.notEmpty) ∨
    ∃ found, isDirectoryEmptyStep codes st ⟨0, chunk, marker⟩ = .ok ⟨marker, true, 0, found⟩ ∧
      MarkerSeen (S ++ chunk) found :=
  match S, chunk, hS with
  | _, [], hS => .inr ⟨_, rfl, by simpa using hS⟩
  | _, [x], .inl ⟨rfl, hf⟩ => by
    by_cases hx : isFormerDirectoryBlob x = true
    · exact .inr ⟨true, by simp [isDirectoryEmptyStep, hf, hx], .inr ⟨x, rfl, hx, rfl⟩⟩
    · refine .inl ⟨by simp [isDirectoryEmptyStep, hf, hx], fun L => ?_⟩
      cases L <;> simp [directoryState, hx]
  | _, [_], .inr ⟨_, rfl, _, hf⟩ => .inl ⟨by simp [isDirectoryEmptyStep, hf], fun _ => rfl⟩
  | _, _ :: _ :: _, _ => .inl ⟨rfl, fun _ => by simp⟩

/-- Over a delivery without repeats, the loop answers what the entries read, the ones seen
before included, say of the directory. -/
theorem isDirectoryEmptyLoop_plain (codes : DirectoryCodes) (d : Bool) (rest : List Reply)
    {n run : Nat} {L : List ListItem} {rs : List Reply} (h : DeliversPlain n run L rs) :
    ∀ (st : DirectoryEmptyState) (S : List ListItem), st.failcount = run →
      MarkerSeen S st.oldDirBlobFound →
      (isDirectoryEmptyLoop codes d st (rs ++ rest)).map (·.1) =
        some (directoryState codes d (S ++ L)) := by
  induction h with
  | @last run chunk _ =>
    intro st S _ hS
    rcases isDirectoryEmptyStep_page codes d hS chunk "" with ⟨hstep, hdec⟩ | ⟨found, hstep, hS'⟩
    · simpa [isDirectoryEmptyLoop, hstep] using (hdec []).symm
    · simp [isDirectoryEmptyLoop, hstep, isDirectoryEmptyContinues, isDirectoryEmptyResult,
        directoryState_of_markerSeen codes d hS']
  | @page run chunk L rs marker hmarker _ _ ih =>
    intro st S _ hS
    rcases isDirectoryEmptyStep_page codes d hS chunk marker with ⟨hstep, hdec⟩ | ⟨found, hstep, hS'⟩
    · simpa [isDirectoryEmptyLoop, hstep] using (hdec L).symm
    · rw [List.cons_append, isDirectoryEmptyLoop_next _ hstep
        (by simpa [isDirectoryEmptyContinues, maxFailCount] using hmarker)]
      simpa using ih ⟨marker, true, 0, found⟩ (S ++ chunk) rfl hS'
  | @retry run L rs r herr hrun _ ih =>
    intro st S hfc hS
    rw [List.cons_append, isDirectoryEmptyLoop_retry _ herr (hfc ▸ hrun)]
    exact ih _ S (by simp [hfc]) hS

/-- Over every listing delivered without repeated entries, with fewer than 20 failures in
a row, `is_directory_empty` answers from the entries alone: not empty on two or more, or on
one that fails the marker test; empty on one that passes it, or on none when the property
call found a directory blob; not existing otherwise. -/
theorem isDirectoryEmpty_plain_listing (codes : DirectoryCodes) (p : PropertyResponse) {n : Nat}
    {L : List ListItem} {rs : List Reply} (hd : DeliversPlain n 0 L rs)
    (hp : p.errno = 0 ∨ p.errno = 404 ∨ p.errno = ENOENT) (rest : List Reply) :
    (isDirectoryEmpty codes (.property p :: (rs ++ rest))).map (·.1) =
      some (directoryState codes
        (p.errno == 0 && p.property.valid && isDirectoryBlob p.property.size p.property.metadata)
        L) := by
  have hgo : ¬(p.errno ≠ 0 ∧ p.errno ≠ 404 ∧ p.errno ≠ ENOENT) := by tauto
  simp only [isDirectoryEmpty, getBlobProperty_cons, hgo, ↓reduceIte]
  exact isDirectoryEmptyLoop_plain codes _ rest hd {} [] rfl (.inl ⟨rfl, rfl⟩)

/-- A legacy marker read after one failed call, under a directory without a blob. -/
theorem isDirectoryEmpty_marker_after_retry :
    DeliversPlain 2 0 [{ name := "d/.directory" }]
      [.list ⟨503, [], ""⟩, .list ⟨0, [{ name := "d/.directory" }], "m"⟩, .list ⟨0, [], ""⟩] ∧
    ((404 : Int) = 0 ∨ (404 : Int) = 404 ∨ (404 : Int) = ENOENT) ∧
    (isDirectoryEmpty ⟨0, 1, 2⟩ (.property ⟨404, {}⟩ :: ([.list ⟨503, [], ""⟩,
      .list ⟨0, [{ name := "d/.directory" }], "m"⟩, .list ⟨0, [], ""⟩] ++ []))).map (·.1) =
      some (directoryState ⟨0, 1, 2⟩ false [{ name := "d/.directory" }]) ∧
    directoryState ⟨0, 1, 2⟩ false [{ name := "d/.directory" }] = 1 := by
  have hd : DeliversPlain 2 0 [{ name := "d/.directory" }]
      [.list ⟨503, [], ""⟩, .list ⟨0, [{ name := "d/.directory" }], "m"⟩, .list ⟨0, [], ""⟩] :=
    .retry _ (by decide) (by decide) (@DeliversPlain.page 2 1 [{ name := "d/.directory" }] [] _ "m" (by decide)
      (by decide) (.last (by decide)))
  exact ⟨hd, .inr (.inl rfl), isDirectoryEmpty_plain_listing ⟨0, 1, 2⟩ ⟨404, {}⟩ hd
    (.inr (.inl rfl)) [], rfl⟩

/-- A directory whose only child is the file `d/x.directory` is reported empty, and the
marker `d/.directory` delivered again at a page boundary makes an empty directory not
empty. -/
theorem isDirectoryEmpty_misreads_markers (codes : DirectoryCodes) :
    let suffixed : KeySet := ⟨[{ name := "d/x.directory" }], by simp⟩
    let marked : KeySet := ⟨[{ name := "d/.directory" }], by simp⟩
    hierarchicalListing suffixed "d/" = [{ name := "d/x.directory" }] ∧
    Delivers 2 none 0 (hierarchicalListing suffixed "d/")
      [.list ⟨0, [{ name := "d/x.directory" }], ""⟩] ∧
    isDirectoryEmpty codes [.property ⟨404, {}⟩, .list ⟨0, [{ name := "d/x.directory" }], ""⟩] =
      some (codes.empty, []) ∧
    hierarchicalListing marked "d/" = [{ name := "d/.directory" }] ∧
    Delivers 2 none 0 (hierarchicalListing marked "d/")
      [.list ⟨0, [{ name := "d/.directory" }], "m"⟩, .list ⟨0, [{ name := "d/.directory" }], ""⟩] ∧
    isDirectoryEmpty codes [.property ⟨404, {}⟩, .list ⟨0, [{ name := "d/.directory" }], "m"⟩,
      .list ⟨0, [{ name := "d/.directory" }], ""⟩] = some (codes.notEmpty, []) := by
  refine ⟨rfl, ?_, rfl, rfl, ?_, rfl⟩
  · exact @Delivers.last 2 none 0 [_] false (by decide)
  · exact @Delivers.page 2 none 0 [_] [] _ _ false (by decide) (by decide)
      (@Delivers.last 2 _ 0 [] true (by decide))

end BlobFuse
