import BlobFuse.KeySet
import BlobFuse.Listing
import Mathlib.Data.List.Chain

/-! A script that answers a paging loop with a given listing: the listing cut into pages
of bounded size, a page possibly opening with the last entry delivered before it, failed
calls retried fewer than `maxFailCount` times in a row. Read by
`list_all_blobs_hierarchical`, such a script gives back exactly the listing. -/
namespace BlobFuse

/-- The entry a page repeats: the last one delivered before it, when `rep` asks for it. -/
def repeatOf (last : Option ListItem) (rep : Bool) : List ListItem :=
  if rep then last.toList else []

/-- `rs` delivers the listing `L` in pages of at most `n` entries, the last page (alone)
with an empty marker. `last` is the entry delivered just before `rs`, `run` the calls that
failed in a row just before it. -/
inductive Delivers (n : Nat) : Option ListItem → Nat → List ListItem → List Reply → Prop
  | last {last : Option ListItem} {run : Nat} {chunk : List ListItem} (rep : Bool) :
      (repeatOf last rep ++ chunk).length ≤ n →
      Delivers n last run chunk [.list ⟨0, repeatOf last rep ++ chunk, ""⟩]
  | page {last : Option ListItem} {run : Nat} {chunk L : List ListItem} {rs : List Reply}
      {marker : String} (rep : Bool) : marker ≠ "" →
      (repeatOf last rep ++ chunk).length ≤ n →
      Delivers n (chunk.getLast?.or last) 0 L rs →
      Delivers n last run (chunk ++ L) (.list ⟨0, repeatOf last rep ++ chunk, marker⟩ :: rs)
  | retry {last : Option ListItem} {run : Nat} {L : List ListItem} {rs : List Reply}
      (r : ListResponse) : r.errno ≠ 0 → run + 1 < maxFailCount →
      Delivers n last (run + 1) L rs → Delivers n last run L (.list r :: rs)

theorem listAllStep_delivered (st : ListAllState) (last : Option ListItem) (rep : Bool)
    (chunk : List ListItem) (marker : String)
    (hprior : st.prior = (last.map (·.name)).getD "")
    (hfresh : ∀ x ∈ chunk.head?, x.name ≠ st.prior) :
    skipFlatten (listAllStep st ⟨0, repeatOf last rep ++ chunk, marker⟩).results =
        skipFlatten st.results ++ chunk ∧
      (listAllStep st ⟨0, repeatOf last rep ++ chunk, marker⟩).prior =
        ((chunk.getLast?.or last).map (·.name)).getD "" := by
  rw [listAllStep_results, listAllStep_prior]
  by_cases hrep : rep = true ∧ last.isSome
  · obtain ⟨rfl, hl⟩ := hrep
    obtain ⟨y, rfl⟩ := Option.isSome_iff_exists.mp hl
    cases chunk with
    | nil => simp [repeatOf, skipFlatten_append, skipFlatten, hprior]
    | cons x more =>
      simp [repeatOf, skipFlatten_append, skipFlatten, hprior, List.getLast?_eq_getLast]
  · have hpage : repeatOf last rep = [] := by
      cases rep <;> cases last <;> simp_all [repeatOf]
    cases chunk with
    | nil => cases last <;> simp [hpage, hprior]
    | cons x more =>
      have hx : (x.name == st.prior) = false := by simpa using hfresh x rfl
      simp [hpage, hx, skipFlatten_append, skipFlatten, List.getLast?_eq_getLast]

theorem fresh_head {last : Option ListItem} {L : List ListItem} {prior : String}
    (hprior : prior = (last.map (·.name)).getD "") (hne : ∀ x ∈ L, x.name ≠ "")
    (hchain : (last.toList ++ L).Chain' fun x y => x.name ≠ y.name) :
    ∀ x ∈ L.head?, x.name ≠ prior := by
  intro x hx
  obtain ⟨t, rfl⟩ : ∃ t, L = x :: t := by
    cases L with
    | nil => simp at hx
    | cons a t => simp at hx; exact ⟨t, by rw [hx]⟩
  cases last with
  | none => simpa [hprior] using hne x (List.mem_cons_self _ _)
  | some y => simpa [hprior, eq_comm] using (List.chain'_cons.mp hchain).1

theorem chain'_after {R : ListItem → ListItem → Prop} {last : Option ListItem}
    {chunk L : List ListItem} (h : (last.toList ++ (chunk ++ L)).Chain' R) :
    ((chunk.getLast?.or last).toList ++ L).Chain' R := by
  rw [← List.append_assoc, List.chain'_append] at h
  obtain ⟨-, hL, hbridge⟩ := h
  have hlast : (last.toList ++ chunk).getLast? = chunk.getLast?.or last := by
    rw [List.getLast?_append]; cases last <;> rfl
  rw [hlast] at hbridge
  refine List.chain'_append.mpr ⟨?_, hL, ?_⟩
  · cases chunk.getLast?.or last <;> simp
  · intro x hx y hy
    exact hbridge x (by cases h : chunk.getLast?.or last <;> simp_all) y hy

/-- The paging loop reads a delivering script to its end and gives back the listing. -/
theorem listAllLoop_delivers {n : Nat} {last : Option ListItem} {run : Nat}
    {L : List ListItem} {rs : List Reply} (h : Delivers n last run L rs)
    (st : ListAllState) (rest : List Reply)
    (hfail : st.failcount = run) (hprior : st.prior = (last.map (·.name)).getD "")
    (hne : ∀ x ∈ L, x.name ≠ "") (hchain : (last.toList ++ L).Chain' fun x y => x.name ≠ y.name) :
    ∃ st', listAllLoop st (rs ++ rest) = some (st', rest) ∧
      skipFlatten st'.results = skipFlatten st.results ++ L ∧ st'.errno = 0 := by
  induction h generalizing st with
  | @last last run chunk rep _ =>
    have hpage := listAllStep_delivered st last rep chunk "" hprior (fresh_head hprior hne hchain)
    refine ⟨_, ?_, hpage.1, listAllStep_errno _ _⟩
    simp [listAllLoop, listAllContinues_step]
  | @page last run chunk L rs marker rep hmarker _ _ ih =>
    have hpage := listAllStep_delivered st last rep chunk marker hprior
      (fun x hx => fresh_head hprior hne hchain x (by cases chunk <;> simp_all))
    obtain ⟨st', hloop, hres, herr⟩ := ih (listAllStep st _) (by simp) hpage.2
      (fun x hx => hne x (List.mem_append_right _ hx)) (chain'_after hchain)
    refine ⟨st', ?_, by rw [hres, hpage.1, List.append_assoc], herr⟩
    simp [listAllLoop, listAllContinues_step, hmarker, hloop]
  | @retry last run L rs r herr hrun _ ih =>
    have hprior' : (listAllStep st r).prior = (last.map (·.name)).getD "" := by
      simp [listAllStep_prior, herr, hprior]
    obtain ⟨st', hloop, hres, herr'⟩ := ih (listAllStep st r) (by simp [herr, hfail]) hprior'
      hne hchain
    refine ⟨st', ?_, by rw [hres, listAllStep_results]; simp [herr], herr'⟩
    simp [listAllLoop, listAllContinues_step, herr, hfail, hrun, hloop]

theorem listAllBlobsHierarchical_delivers {n : Nat} {L : List ListItem} {rs : List Reply}
    (h : Delivers n none 0 L rs) (hne : ∀ x ∈ L, x.name ≠ "")
    (hchain : L.Chain' fun x y => x.name ≠ y.name) (rest : List Reply) :
    ∃ res, listAllBlobsHierarchical (rs ++ rest) = some (res, 0, rest) ∧ skipFlatten res = L := by
  obtain ⟨st', hloop, hres, herr⟩ := listAllLoop_delivers h {} rest rfl rfl hne (by simpa using hchain)
  exact ⟨st'.results, by simp [listAllBlobsHierarchical, hloop, herr], by simpa [skipFlatten] using hres⟩

/-- For every key set and non-empty prefix, a script delivering the hierarchical listing,
in pages of any size with boundary repeats and retried failures, makes
`list_all_blobs_hierarchical` return exactly that listing once `skip_first` is applied. -/
theorem listAllBlobsHierarchical_keySet (K : KeySet) {pre : String} (hpre : pre ≠ "") {n : Nat}
    {rs : List Reply} (hd : Delivers n none 0 (hierarchicalListing K pre) rs) (rest : List Reply) :
    ∃ res, listAllBlobsHierarchical (rs ++ rest) = some (res, 0, rest) ∧
      skipFlatten res = hierarchicalListing K pre :=
  listAllBlobsHierarchical_delivers hd (hierarchicalListing_name_ne hpre)
    (hierarchicalListing_chain K pre) rest

/-- Keys `a/x` and `a/y/z` under `a/`: the listing `a/x`, `a/y/` in two pages, the second
opening with `a/x` again after a failed call. -/
theorem listAllBlobsHierarchical_keySet_two_pages :
    let K : KeySet := ⟨[{ name := "a/x" }, { name := "a/y/z" }], by decide⟩
    "a/" ≠ "" ∧
    ∃ rs, Delivers 2 none 0 (hierarchicalListing K "a/") rs ∧
      ∃ res, listAllBlobsHierarchical (rs ++ []) = some (res, 0, []) ∧
        skipFlatten res = hierarchicalListing K "a/" := by
  intro K
  have hL : hierarchicalListing K "a/" =
      [{ name := "a/x" }] ++ [{ name := "a/y/", isDirectory := true }] := rfl
  have hd : Delivers 2 none 0 (hierarchicalListing K "a/") _ := hL ▸
    @Delivers.page 2 none 0 [{ name := "a/x" }] [{ name := "a/y/", isDirectory := true }] _ "m"
      false (by decide) (by decide)
      (.retry ⟨503, [], ""⟩ (by decide) (by decide)
        (@Delivers.last 2 _ 1 [{ name := "a/y/", isDirectory := true }] true (by decide)))
  exact ⟨by decide, _, hd, listAllBlobsHierarchical_keySet K (by decide) hd []⟩

end BlobFuse
