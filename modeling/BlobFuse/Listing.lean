import BlobFuse.Storage
import Mathlib.Data.List.Nodup

/-! `list_all_blobs_hierarchical`: the paging loop over `list_blobs_hierarchical`, with its
retry counter and the `skip_first` flag that marks a page opening with the last name of
the page before it. -/
namespace BlobFuse

/-- `maxFailCount`: consecutive failed calls after which the loop gives up. -/
def maxFailCount : Nat := 20

/-- The locals of `list_all_blobs_hierarchical` between iterations, and the global `errno`
as the last call left it. -/
structure ListAllState where
  continuation : String := ""
  prior : String := ""
  success : Bool := false
  failcount : Nat := 0
  results : List (List ListItem × Bool) := []
  errno : Int := 0
  deriving DecidableEq, Repr

/-- One iteration of the `do` body, on the reply of its call. -/
def listAllStep (st : ListAllState) (r : ListResponse) : ListAllState :=
  if r.errno = 0 then
    match r.blobs with
    | [] => { st with success := true, failcount := 0, continuation := r.nextMarker, errno := 0 }
    | first :: rest =>
      { st with success := true, failcount := 0, continuation := r.nextMarker, errno := 0,
                prior := ((first :: rest).getLast (List.cons_ne_nil _ _)).name,
                results := st.results ++ [(first :: rest, first.name == st.prior)] }
  else { st with failcount := st.failcount + 1, success := false, errno := r.errno }

/-- The loop condition `(!continuation.empty() || !success) && failcount < maxFailCount`. -/
def listAllContinues (st : ListAllState) : Bool :=
  (st.continuation != "" || !st.success) && decide (st.failcount < maxFailCount)

/-- The `do ... while` loop; every iteration is answered by the next reply. -/
def listAllLoop (st : ListAllState) : List Reply → Option (ListAllState × List Reply)
  | .list r :: script =>
    if listAllContinues (listAllStep st r) then listAllLoop (listAllStep st r) script
    else some (listAllStep st r, script)
  | _ => none

/-- The continuation marker each call of the loop is passed, one per call. -/
def listAllMarkers (st : ListAllState) : List Reply → List String
  | .list r :: script =>
    st.continuation ::
      if listAllContinues (listAllStep st r) then listAllMarkers (listAllStep st r) script else []
  | _ => []

/-- `list_all_blobs_hierarchical`: the pages with their `skip_first` flags, `errno` as the
last call left it, and the replies not consumed. -/
def listAllBlobsHierarchical (script : List Reply) :
    Option (List (List ListItem × Bool) × Int × List Reply) :=
  (listAllLoop {} script).map fun (st, rest) => (st.results, st.errno, rest)

/-- The pages as a consumer reads them: index 0 dropped from every page flagged
`skip_first`. -/
def skipFlatten (results : List (List ListItem × Bool)) : List ListItem :=
  results.flatMap fun (page, skip) => if skip then page.drop 1 else page

/-! ### What the remote returned -/

/-- The marker of the latest successful call, empty before the first. -/
def lastMarker (rs : List ListResponse) : String :=
  rs.foldl (fun m r => if r.errno = 0 then r.nextMarker else m) ""

/-- The number of calls that failed in a row at the end. -/
def failRun (rs : List ListResponse) : Nat :=
  rs.foldl (fun n r => if r.errno = 0 then 0 else n + 1) 0

/-- After these replies the loop must stop: the last call succeeded with an empty marker,
or it was the 20th failure in a row. -/
def StopsAfter (rs : List ListResponse) : Prop :=
  match rs.getLast? with
  | some r => (r.errno = 0 ∧ r.nextMarker = "") ∨ maxFailCount ≤ failRun rs
  | none => False

/-- The pages of the successful calls, in order. -/
def successPages (rs : List ListResponse) : List (List ListItem) :=
  (rs.filter fun r => r.errno = 0).map (·.blobs)

/-- A page whose names, read after `seen`, repeat at most the first one, and only when it
is the last name read before it. -/
def PageRepeatsAtBoundary (seen : List String) : List String → Prop
  | [] => True
  | x :: rest => (x ∉ seen ∨ seen.getLast? = some x) ∧ rest.Nodup ∧ ∀ y ∈ rest, y ≠ x ∧ y ∉ seen

/-- Every page repeats a name only as its first entry, equal to the last entry of the
latest earlier non-empty page. -/
def RepeatsOnlyAtBoundary (pages : List (List ListItem)) : Prop :=
  ∀ ps p qs, pages = ps ++ p :: qs →
    PageRepeatsAtBoundary (ps.flatten.map (·.name)) (p.map (·.name))

/-! ### One iteration -/

section Step
variable (st : ListAllState) (r : ListResponse)

@[simp] theorem listAllStep_continuation :
    (listAllStep st r).continuation = if r.errno = 0 then r.nextMarker else st.continuation := by
  unfold listAllStep; split <;> [split <;> rfl; rfl]

@[simp] theorem listAllStep_success : (listAllStep st r).success = decide (r.errno = 0) := by
  unfold listAllStep; split <;> [split <;> simp [*]; simp [*]]

@[simp] theorem listAllStep_failcount :
    (listAllStep st r).failcount = if r.errno = 0 then 0 else st.failcount + 1 := by
  unfold listAllStep; split <;> [split <;> rfl; rfl]

@[simp] theorem listAllStep_errno : (listAllStep st r).errno = r.errno := by
  unfold listAllStep; split <;> [split <;> simp [*]; rfl]

theorem listAllStep_results : (listAllStep st r).results =
    st.results ++ if r.errno = 0 then
      (match r.blobs with
       | [] => []
       | first :: _ => [(r.blobs, first.name == st.prior)])
    else [] := by
  unfold listAllStep; split <;> [split <;> simp [*]; simp [*]]

theorem listAllStep_prior : (listAllStep st r).prior =
    if r.errno = 0 then (r.blobs.getLast?.map (·.name)).getD st.prior else st.prior := by
  unfold listAllStep; split <;> [split <;> simp [*, List.getLast?_eq_getLast]; rfl]

theorem listAllContinues_step : listAllContinues (listAllStep st r) =
    if r.errno = 0 then r.nextMarker != "" else decide (st.failcount + 1 < maxFailCount) := by
  by_cases h : r.errno = 0 <;> simp [listAllContinues, h, maxFailCount]

end Step

/-! ### The loop over a sequence of replies -/

section Loop

theorem listAllMarkers_length_le :
    ∀ (st : ListAllState) (rs : List ListResponse),
      (listAllMarkers st (rs.map .list)).length ≤ rs.length
  | _, [] => le_refl _
  | st, r :: rs => by
    have := listAllMarkers_length_le (listAllStep st r) rs
    simp only [List.map_cons, listAllMarkers, List.length_cons, List.length_map]
    split <;> simp [this]

theorem listAllMarkers_eq : ∀ (st : ListAllState) (rs : List ListResponse),
    listAllMarkers st (rs.map .list) =
      (List.range (listAllMarkers st (rs.map .list)).length).map
        fun k => ((rs.take k).foldl listAllStep st).continuation
  | _, [] => rfl
  | st, r :: rs => by
    simp only [List.map_cons, listAllMarkers]
    split
    · rw [List.length_cons, List.range_succ_eq_map, List.map_cons, List.map_map]
      conv_lhs => rw [listAllMarkers_eq (listAllStep st r) rs]
      rfl
    · rfl

theorem listAllMarkers_continues : ∀ (st : ListAllState) (rs : List ListResponse) (m : Nat),
    0 < m → m < (listAllMarkers st (rs.map .list)).length →
      listAllContinues ((rs.take m).foldl listAllStep st) = true
  | _, [], _, _, h => absurd h (Nat.not_lt_zero _)
  | st, r :: rs, m, hm, h => by
    simp only [List.map_cons, listAllMarkers] at h
    split at h
    · rename_i hc
      obtain ⟨m, rfl⟩ := Nat.exists_eq_add_of_lt hm
      rcases m with _ | m
      · simpa using hc
      · simp only [List.length_cons] at h
        simpa using listAllMarkers_continues (listAllStep st r) rs (m + 1) (by omega) (by omega)
    · simp at h; omega

theorem listAllLoop_map : ∀ (st : ListAllState) (rs : List ListResponse),
    listAllLoop st (rs.map .list) =
      let n := (listAllMarkers st (rs.map .list)).length
      if 0 < n ∧ listAllContinues ((rs.take n).foldl listAllStep st) = false then
        some ((rs.take n).foldl listAllStep st, (rs.drop n).map .list)
      else none
  | _, [] => rfl
  | st, r :: rs => by
    simp only [List.map_cons, listAllLoop, listAllMarkers]
    split
    · rename_i hc
      rw [listAllLoop_map (listAllStep st r) rs]
      rcases hn : (listAllMarkers (listAllStep st r) (List.map Reply.list rs)).length with _ | n
      · simp [hn, hc]
      · simp [hn]
    · rename_i hc
      simp [hc]

theorem listAllMarkers_exhausted : ∀ (st : ListAllState) (rs : List ListResponse),
    (listAllMarkers st (rs.map .list)).length = rs.length ∨
      (0 < (listAllMarkers st (rs.map .list)).length ∧
        listAllContinues ((rs.take (listAllMarkers st (rs.map .list)).length).foldl
          listAllStep st) = false)
  | _, [] => .inl rfl
  | st, r :: rs => by
    simp only [List.map_cons, listAllMarkers]
    split
    · rename_i hc
      rcases listAllMarkers_exhausted (listAllStep st r) rs with h | ⟨hpos, h⟩
      · exact .inl (by simp [h])
      · exact .inr ⟨by simp, by simpa using h⟩
    · rename_i hc
      exact .inr ⟨by simp, by simpa using hc⟩

theorem listAllLoop_failures (rest : List Reply) :
    ∀ (st : ListAllState) (rs : List ListResponse) (r : ListResponse),
      (∀ x ∈ rs ++ [r], x.errno ≠ 0) → st.failcount + rs.length + 1 = maxFailCount →
      ∃ st', listAllLoop st ((rs ++ [r]).map .list ++ rest) = some (st', rest) ∧
        st'.results = st.results ∧ st'.errno = r.errno
  | st, [], r, hfail, hlen => by
    have hr := hfail r (by simp)
    have hstop : ¬ st.failcount + 1 < maxFailCount := by simp at hlen; omega
    refine ⟨listAllStep st r, ?_, by simp [listAllStep_results, hr], listAllStep_errno _ _⟩
    simp [listAllLoop, listAllContinues_step, hr, hstop]
  | st, x :: rs, r, hfail, hlen => by
    have hx := hfail x (List.mem_cons_self _ _)
    have hgo : st.failcount + 1 < maxFailCount := by simp at hlen; omega
    obtain ⟨st', hloop, hres, herr⟩ := listAllLoop_failures rest (listAllStep st x) rs r
      (fun y hy => hfail y (List.mem_cons_of_mem _ hy)) (by simp [hx]; simp at hlen; omega)
    refine ⟨st', ?_, by rw [hres, listAllStep_results]; simp [hx], herr⟩
    rw [List.cons_append, List.map_cons, List.cons_append, listAllLoop,
      if_pos (by simp [listAllContinues_step, hx, hgo])]
    exact hloop

theorem listAllLoop_running : ∀ (st : ListAllState) (pre : List ListResponse),
    listAllLoop st (pre.map .list) = none → ∀ rest,
      listAllLoop st (pre.map .list ++ rest) = listAllLoop (pre.foldl listAllStep st) rest
  | _, [], _, _ => rfl
  | st, r :: pre, hrun, rest => by
    simp only [List.map_cons, List.cons_append, List.foldl_cons, listAllLoop] at hrun ⊢
    split at hrun
    · rw [if_pos ‹_›]
      exact listAllLoop_running _ pre hrun rest
    · cases hrun

end Loop

/-! ### What the state says about the replies read -/

section Abstraction

theorem foldl_listAllStep_continuation (pre : List ListResponse) :
    (pre.foldl listAllStep {}).continuation = lastMarker pre := by
  suffices ∀ st, (pre.foldl listAllStep st).continuation =
      pre.foldl (fun m r => if r.errno = 0 then r.nextMarker else m) st.continuation from
    this {}
  induction pre with
  | nil => intro; rfl
  | cons r pre ih => intro st; simp [ih]

theorem foldl_listAllStep_failcount (pre : List ListResponse) :
    (pre.foldl listAllStep {}).failcount = failRun pre := by
  suffices ∀ st, (pre.foldl listAllStep st).failcount =
      pre.foldl (fun n r => if r.errno = 0 then 0 else n + 1) st.failcount from this {}
  induction pre with
  | nil => intro; rfl
  | cons r pre ih => intro st; simp [ih]

theorem failRun_concat (pre : List ListResponse) (r : ListResponse) :
    failRun (pre ++ [r]) = if r.errno = 0 then 0 else failRun pre + 1 := by
  simp [failRun]

theorem listAllContinues_foldl_eq_false {pre : List ListResponse} (h : pre ≠ []) :
    listAllContinues (pre.foldl listAllStep {}) = false ↔ StopsAfter pre := by
  obtain ⟨init, r, rfl⟩ := (List.eq_nil_or_concat pre).resolve_left h
  rw [List.concat_eq_append, List.foldl_append, List.foldl_cons, List.foldl_nil,
    listAllContinues_step, foldl_listAllStep_failcount]
  by_cases hr : r.errno = 0 <;> simp [StopsAfter, failRun_concat, hr, maxFailCount]

theorem successPages_concat (pre : List ListResponse) (r : ListResponse) :
    successPages (pre ++ [r]) = successPages pre ++ if r.errno = 0 then [r.blobs] else [] := by
  by_cases hr : r.errno = 0 <;> simp [successPages, hr]

theorem foldl_listAllStep_prior (pre : List ListResponse) :
    (pre.foldl listAllStep {}).prior =
      (((successPages pre).flatten.map (·.name)).getLast?).getD "" := by
  induction pre using List.reverseRecOn with
  | nil => rfl
  | append_singleton pre r ih =>
    rw [List.foldl_append, List.foldl_cons, List.foldl_nil, listAllStep_prior, ih,
      successPages_concat]
    by_cases hr : r.errno = 0
    · cases hb : r.blobs.getLast? <;> simp [hr, hb, List.getLast?_map]
    · simp [hr]

end Abstraction

/-! ### Boundary repeats -/

section Dedup

theorem dedup_page_step {out seen rest : List String} {x : String}
    (hnodup : out.Nodup) (hsub : out.Sublist seen) (hall : ∀ y ∈ seen, y ∈ out)
    (hx : x ≠ "") (hpage : PageRepeatsAtBoundary seen (x :: rest)) :
    let out' := out ++ if x == seen.getLast?.getD "" then rest else x :: rest
    out'.Nodup ∧ out'.Sublist (seen ++ x :: rest) ∧ ∀ y ∈ seen ++ x :: rest, y ∈ out' := by
  obtain ⟨hfirst, hrestNodup, hrest⟩ := hpage
  have hout : ∀ y ∈ out, y ∈ seen := fun y hy => hsub.subset hy
  by_cases hskip : x = seen.getLast?.getD ""
  · have hxseen : x ∈ seen := by
      cases hl : seen.getLast? with
      | none => simp [hl] at hskip; exact absurd hskip hx
      | some z => simp [hl] at hskip; exact hskip ▸ List.mem_of_getLast?_eq_some hl
    simp only [hskip, beq_self_eq_true, if_true]
    refine ⟨List.nodup_append.mpr ⟨hnodup, hrestNodup, fun a ha hb => ?_⟩,
      hsub.append (List.sublist_cons_self _ _), fun y hy => ?_⟩
    · exact (hrest a hb).2 (hout a ha)
    · rcases List.mem_append.mp hy with h | h
      · exact List.mem_append_left _ (hall y h)
      · rcases List.mem_cons.mp h with rfl | h
        · exact List.mem_append_left _ (hall _ (hskip ▸ hxseen))
        · exact List.mem_append_right _ h
  · have hxnot : x ∉ seen := by
      rcases hfirst with h | h
      · exact h
      · simp [h] at hskip
    simp only [beq_iff_eq, hskip, if_false]
    refine ⟨List.nodup_append.mpr ⟨hnodup, List.nodup_cons.mpr ⟨fun h => (hrest x h).1 rfl,
      hrestNodup⟩, fun a ha hb => ?_⟩, hsub.append (List.Sublist.refl _), fun y hy => ?_⟩
    · rcases List.mem_cons.mp hb with rfl | hb
      · exact hxnot (hout a ha)
      · exact (hrest a hb).2 (hout a ha)
    · rcases List.mem_append.mp hy with h | h
      · exact List.mem_append_left _ (hall y h)
      · exact List.mem_append_right _ h

theorem RepeatsOnlyAtBoundary.concat {ps : List (List ListItem)} {p : List ListItem}
    (h : RepeatsOnlyAtBoundary (ps ++ [p])) :
    RepeatsOnlyAtBoundary ps ∧ PageRepeatsAtBoundary (ps.flatten.map (·.name)) (p.map (·.name)) :=
  ⟨fun a q b hab => h a q (b ++ [p]) (by simp [hab]), h ps p [] rfl⟩

theorem skipFlatten_append (a b : List (List ListItem × Bool)) :
    skipFlatten (a ++ b) = skipFlatten a ++ skipFlatten b := List.flatMap_append _ _ _

theorem skipFlatten_concat_names (res : List (List ListItem × Bool)) (first : ListItem)
    (more : List ListItem) (skip : Bool) :
    (skipFlatten (res ++ [(first :: more, skip)])).map (·.name) =
      (skipFlatten res).map (·.name) ++
        if skip then more.map (·.name) else first.name :: more.map (·.name) := by
  cases skip <;> simp [skipFlatten_append, skipFlatten]

/-- When names are not empty and the remote repeats a name only at a page boundary, the
pages read so far give every returned name once, in the order returned. -/
theorem foldl_listAllStep_dedup (pre : List ListResponse)
    (hne : ∀ p ∈ successPages pre, ∀ x ∈ p, x.name ≠ "")
    (hrep : RepeatsOnlyAtBoundary (successPages pre)) :
    let out := (skipFlatten (pre.foldl listAllStep {}).results).map (·.name)
    let returned := (successPages pre).flatten.map (·.name)
    out.Nodup ∧ out.Sublist returned ∧ ∀ x ∈ returned, x ∈ out := by
  induction pre using List.reverseRecOn with
  | nil => simp [skipFlatten, successPages]
  | append_singleton pre r ih =>
    rw [successPages_concat] at hne hrep ⊢
    rw [List.foldl_append, List.foldl_cons, List.foldl_nil, listAllStep_results]
    by_cases hr : r.errno = 0
    · simp only [hr, if_true] at hne hrep ⊢
      obtain ⟨hrep', hpage⟩ := hrep.concat
      obtain ⟨hnodup, hsub, hall⟩ :=
        ih (fun p hp => hne p (List.mem_append_left _ hp)) hrep'
      cases hb : r.blobs with
      | nil =>
        simp only [hb, List.append_nil, List.flatten_append, List.flatten_cons, List.flatten_nil]
        exact ⟨hnodup, hsub, hall⟩
      | cons first more =>
        have hfirst : first.name ≠ "" := hne r.blobs (by simp) first (by simp [hb])
        rw [hb] at hpage
        have key := dedup_page_step hnodup hsub hall hfirst hpage
        rw [← foldl_listAllStep_prior] at key
        simp only [hb, skipFlatten_concat_names, List.flatten_append, List.map_append, List.flatten_cons,
          List.flatten_nil, List.append_nil, List.map_cons]
        exact key
    · simp only [hr, if_false, List.append_nil] at hne hrep ⊢
      exact ih hne hrep

end Dedup

/-! ### The paging contract -/

theorem take_ne_nil_of_pos {rs : List ListResponse} {m : Nat} (hm : 0 < m) (hle : m ≤ rs.length) :
    rs.take m ≠ [] := by
  intro h
  have := congrArg List.length h
  simp only [List.length_take, List.length_nil] at this
  omega

/-- On every sequence of replies, `list_all_blobs_hierarchical` passes each call the marker
of the latest successful call, stops right after the first reply that stops it (a success
with an empty marker, or the 20th failure in a row), and returns pages whose names, index 0
of each `skip_first` page dropped, are every name returned, once each, in the order
returned, provided no name is empty and names repeat only at page boundaries. -/
theorem listAllBlobsHierarchical_paging (rs : List ListResponse) :
    let calls := listAllMarkers {} (rs.map .list)
    let read := rs.take calls.length
    calls = (List.range calls.length).map (fun k => lastMarker (rs.take k)) ∧
    (∀ m, 0 < m → m < calls.length → ¬ StopsAfter (rs.take m)) ∧
    (calls.length = rs.length ∨ StopsAfter read) ∧
    ((listAllBlobsHierarchical (rs.map .list)).isSome ↔ StopsAfter read) ∧
    ((∀ p ∈ successPages read, ∀ x ∈ p, x.name ≠ "") → RepeatsOnlyAtBoundary (successPages read) →
      ∀ res e rest, listAllBlobsHierarchical (rs.map .list) = some (res, e, rest) →
        let out := (skipFlatten res).map (·.name)
        let returned := (successPages read).flatten.map (·.name)
        out.Nodup ∧ out.Sublist returned ∧ ∀ x ∈ returned, x ∈ out) := by
  dsimp only
  have hle := listAllMarkers_length_le {} rs
  have hloop := listAllLoop_map {} rs
  refine ⟨?_, fun m hm hlt => ?_, ?_, ?_, fun hne hrep res e rest h => ?_⟩
  · conv_lhs => rw [listAllMarkers_eq]
    simp only [foldl_listAllStep_continuation]
  · rw [← listAllContinues_foldl_eq_false (take_ne_nil_of_pos hm (by omega)),
      listAllMarkers_continues {} rs m hm hlt]
    decide
  · rcases listAllMarkers_exhausted {} rs with h | ⟨hpos, h⟩
    · exact .inl h
    · exact .inr ((listAllContinues_foldl_eq_false (take_ne_nil_of_pos hpos hle)).mp h)
  · simp only [listAllBlobsHierarchical, Option.isSome_map, hloop]
    constructor
    · intro h
      split at h
      · rename_i hc
        exact (listAllContinues_foldl_eq_false (take_ne_nil_of_pos hc.1 hle)).mp hc.2
      · simp at h
    · intro hs
      have hpos : 0 < (listAllMarkers {} (rs.map .list)).length :=
        Nat.pos_of_ne_zero fun h0 => by rw [h0, List.take_zero] at hs; exact hs
      rw [if_pos ⟨hpos, (listAllContinues_foldl_eq_false (take_ne_nil_of_pos hpos hle)).mpr hs⟩]
      rfl
  · simp only [listAllBlobsHierarchical, hloop] at h
    split at h
    · simp only [Option.map_some', Option.some.injEq, Prod.mk.injEq] at h
      rw [← h.1]
      exact foldl_listAllStep_dedup _ hne hrep
    · simp at h

/-- Two pages, the second opening with the last name of the first: `skip_first` drops the
repeat, and the consumer reads `a`, `b`, `c`, each once. -/
theorem listAllBlobsHierarchical_paging_boundary_repeat :
    let rs : List ListResponse :=
      [⟨0, [{ name := "a" }, { name := "b" }], "m"⟩, ⟨0, [{ name := "b" }, { name := "c" }], ""⟩]
    let read := rs.take (listAllMarkers {} (rs.map .list)).length
    read = rs ∧ RepeatsOnlyAtBoundary (successPages read) ∧
    ∃ res e rest, listAllBlobsHierarchical (rs.map .list) = some (res, e, rest) ∧
      (skipFlatten res).map (·.name) = ["a", "b", "c"] ∧
      ((skipFlatten res).map (·.name)).Nodup ∧
      ((skipFlatten res).map (·.name)).Sublist ((successPages read).flatten.map (·.name)) ∧
      ∀ x ∈ (successPages read).flatten.map (·.name), x ∈ (skipFlatten res).map (·.name) := by
  intro rs read
  have hread : read = rs := rfl
  have hrep : RepeatsOnlyAtBoundary (successPages read) := fun ps p qs h => by
    rcases ps with _ | ⟨q, _ | ⟨_, _⟩⟩ <;> simp [hread, rs, successPages] at h
    · obtain ⟨rfl, rfl⟩ := h; simp [PageRepeatsAtBoundary]
    · obtain ⟨rfl, rfl, rfl⟩ := h; simp [PageRepeatsAtBoundary]
  have hne : ∀ p ∈ successPages read, ∀ x ∈ p, x.name ≠ "" := by
    rw [hread]; simp [rs, successPages]
  obtain ⟨-, -, -, -, hdedup⟩ := listAllBlobsHierarchical_paging rs
  exact ⟨hread, hrep, _, _, _, rfl, rfl, hdedup hne hrep _ _ _ rfl⟩

/-- A first page whose first name is empty is flagged `skip_first`: `prior` starts empty. -/
theorem listAllBlobsHierarchical_drops_empty_first_name :
    RepeatsOnlyAtBoundary (successPages [⟨0, [{ name := "" }], ""⟩]) ∧
    (listAllBlobsHierarchical [.list ⟨0, [{ name := "" }], ""⟩]).map
        (fun (res, _, _) => (skipFlatten res).map (·.name)) = some [] ∧
    (successPages [⟨0, [{ name := "" }], ""⟩]).flatten.map (·.name) = [""] := by
  refine ⟨fun ps p qs h => ?_, rfl, rfl⟩
  rcases ps with _ | ⟨q, _ | ⟨_, _⟩⟩ <;> simp [successPages] at h
  obtain ⟨rfl, rfl⟩ := h
  simp [PageRepeatsAtBoundary]

end BlobFuse
