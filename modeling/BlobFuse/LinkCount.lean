import BlobFuse.Getattr

/-! The link count `azs_getattr` gives a directory. Its scan counts in `dirSize` the entries
that sort before `b/`, leaves a page once the count passes 2, and sets the count to 1 when
it matches `b/` before counting anything. A listing under `b` keeps its names in order, so
whatever the pages, `st_nlink` is 3 exactly when two listed entries sort before `b/`: the
blob `b` and the names `b` followed by a character below `/`. The keys under `b/` are rolled
up into `b/` itself, which does not sort before itself, so they never count. -/
namespace BlobFuse

/-- `listResults[i].name.compare(blobNameStr + '/') < 0`. -/
def sortsBefore (b : String) (e : ListItem) : Bool := nameLt e.name.data (b ++ "/").data

/-- What `dirSize` says after the entries `seen`, with `rest` still to come: up to 2 it is
the number of them that sort before `b/`; or none did, the match `b/` set it to 1, and no
entry sorting before `b/` follows. -/
def ScanCount (b : String) (s : GetattrScan) (seen rest : List ListItem) : Prop :=
  min 2 s.dirSize = min 2 (seen.countP (sortsBefore b)) ∨
    (seen.countP (sortsBefore b) = 0 ∧ s.dirSize = 1 ∧ ∀ x ∈ rest, sortsBefore b x = false)

section Steps
variable {b : String} {s s' : GetattrScan} {seen rest : List ListItem} {x : ListItem}

theorem ScanCount.counted (h : ScanCount b s seen (x :: rest)) (hx : sortsBefore b x = true)
    (hd : s'.dirSize = s.dirSize + 1) : ScanCount b s' (seen ++ [x]) rest := by
  rcases h with h | ⟨-, -, hnone⟩
  · left
    simp only [List.countP_append, List.countP_singleton, hx, if_true, hd]
    omega
  · exact absurd (hnone x (List.mem_cons_self _ _)) (by simp [hx])

theorem ScanCount.broken (h : ScanCount b s seen (x :: rest)) (hx : sortsBefore b x = true)
    (hd : s'.dirSize = s.dirSize + 1) (hbig : 2 < s'.dirSize) (skipped rest' : List ListItem) :
    ScanCount b s' (seen ++ x :: skipped) rest' := by
  rcases h with h | ⟨-, -, hnone⟩
  · left
    simp only [List.countP_append, List.countP_cons, hx, if_true]
    omega
  · exact absurd (hnone x (List.mem_cons_self _ _)) (by simp [hx])

theorem ScanCount.uncounted (h : ScanCount b s seen (x :: rest)) (hx : sortsBefore b x = false)
    (hord : ∀ y ∈ rest, sortsBefore b y = true → sortsBefore b x = true)
    (hd : s'.dirSize = s.dirSize ∨ (s.dirSize = 0 ∧ s'.dirSize = 1)) :
    ScanCount b s' (seen ++ [x]) rest := by
  have hcount : (seen ++ [x]).countP (sortsBefore b) = seen.countP (sortsBefore b) := by
    simp [List.countP_append, hx]
  have hafter : ∀ y ∈ rest, sortsBefore b y = false := fun y hy => by
    cases hy' : sortsBefore b y
    · rfl
    · simp [hord y hy hy'] at hx
  rw [ScanCount, hcount]
  rcases h with h | ⟨h0, h1, -⟩ <;> rcases hd with hd | ⟨hd0, hd1⟩
  · exact .inl (hd ▸ h)
  · exact .inr ⟨by rw [hd0] at h; omega, hd1, hafter⟩
  · exact .inr ⟨h0, hd ▸ h1, hafter⟩
  · omega

end Steps

theorem scanPage_count (b : String) : ∀ (q : List ListItem) (s : GetattrScan) (seen R : List ListItem),
    (q ++ R).Pairwise (fun x y => sortsBefore b y = true → sortsBefore b x = true) →
    ScanCount b s seen (q ++ R) → ScanCount b (scanPage b s q) (seen ++ q) R
  | [], s, seen, R, _, h => by simpa [scanPage] using h
  | x :: q, s, seen, R, hord, h => by
    rw [List.cons_append] at hord h
    have hafter : ∀ y ∈ q ++ R, sortsBefore b y = true → sortsBefore b x = true :=
      fun _ hy => List.rel_of_pairwise_cons hord hy
    have next : ∀ s', ScanCount b s' (seen ++ [x]) (q ++ R) →
        ScanCount b (scanPage b s' q) (seen ++ x :: q) R := fun s' h' => by
      simpa using scanPage_count b q s' (seen ++ [x]) R hord.of_cons h'
    have hx' : nameLt x.name.data (b ++ "/").data = sortsBefore b x := rfl
    cases hx : sortsBefore b x
    · simp only [scanPage, hx', hx, Bool.false_eq_true, if_false, Bool.false_and]
      refine next _ (h.uncounted hx hafter ?_)
      split
      · dsimp only
        split <;> simp_all
      · exact .inl rfl
    · simp only [scanPage, hx', hx, if_true, Bool.true_and]
      split
      · rename_i hbreak
        simp only [Bool.and_eq_true, decide_eq_true_eq] at hbreak
        exact h.broken hx rfl hbreak.1 q R
      · refine next _ (h.counted hx ?_)
        split
        · dsimp only
          split <;> simp_all
        · rfl

theorem scanPages_count (b : String) : ∀ (pages : List (List ListItem × Bool)) (s : GetattrScan)
    (seen : List ListItem),
    (skipFlatten pages).Pairwise (fun x y => sortsBefore b y = true → sortsBefore b x = true) →
    ScanCount b s seen (skipFlatten pages) →
    ScanCount b (scanPages b s pages) (seen ++ skipFlatten pages) []
  | [], s, seen, _, h => by simpa [scanPages, skipFlatten] using h
  | (page, skip) :: pages, s, seen, hord, h => by
    have hsplit : skipFlatten ((page, skip) :: pages) =
        (if skip then page.drop 1 else page) ++ skipFlatten pages := rfl
    rw [hsplit] at hord h ⊢
    have ih := scanPages_count b pages _ _ (hord.sublist (List.sublist_append_right _ _))
      (scanPage_count b _ s seen _ hord h)
    simpa [scanPages] using ih

/-- The scan from its start ends with `dirSize > 1` exactly when two entries sort before
`b/`. -/
theorem scanPages_dirSize (b : String) (pages : List (List ListItem × Bool))
    (hord : (skipFlatten pages).Pairwise fun x y => sortsBefore b y = true → sortsBefore b x = true) :
    1 < (scanPages b {} pages).dirSize ↔ 2 ≤ (skipFlatten pages).countP (sortsBefore b) := by
  rcases scanPages_count b pages {} [] hord (.inl rfl) with h | ⟨h0, h1, -⟩
  · simp only [List.nil_append] at h
    omega
  · simp only [List.nil_append] at h0
    omega

theorem hierarchicalListing_sortsBefore (K : KeySet) (b : String) :
    (hierarchicalListing K b).Pairwise fun x y => sortsBefore b y = true → sortsBefore b x = true :=
  (hierarchicalListing_sorted K b).imp fun {x y} h hy => h.elim
    (fun he => by simpa only [sortsBefore, he] using hy) (fun hlt => nameLt_trans hlt hy)

/-- For every key set and non-root path `/b` absent from the local cache, on a listing of
`b` delivered in pages of two, when `azs_getattr` reports a directory its link count is 3
exactly when at least two entries of the listing sort before `b/`, and 2 otherwise. -/
theorem azsGetattr_directory_nlink (errorMapping : List (Int × Int)) (K : KeySet) {b : String}
    (hb : b ≠ "") {rs : List Reply} (hd : Delivers 2 none 0 (hierarchicalListing K b) rs)
    (now : Int) (stbuf : Stat) (pr : PropertyResponse) (rest : List Reply) :
    ∃ ret st script,
      azsGetattr errorMapping ("/" ++ b) none now stbuf (rs ++ .property pr :: rest) =
        some ((ret, st), script) ∧
      (ret = 0 → st.kind = .dir →
        st.nlink = if 2 ≤ (hierarchicalListing K b).countP (sortsBefore b) then 3 else 2) := by
  obtain ⟨res, hlist, hres⟩ := listAllBlobsHierarchical_delivers hd (hierarchicalListing_name_ne hb)
    (hierarchicalListing_chain K b) (.property pr :: rest)
  have hlinks := scanPages_dirSize b res (by rw [hres]; exact hierarchicalListing_sortsBefore K b)
  rw [hres] at hlinks
  have hpath : (⟨("/" ++ b).data.drop 1⟩ : String) = b := rfl
  have hENOENT : (-ENOENT : Int) ≠ 0 := by decide
  simp only [azsGetattr, utf8ByteSize_slash_append hb, if_false, hpath, hlist]
  by_cases hres0 : res = []
  · simp only [hres0, ne_eq, not_true_eq_false, and_false, if_false, lt_self_iff_false]
    exact ⟨_, _, _, rfl, fun h => absurd h hENOENT⟩
  rw [if_pos ⟨trivial, hres0⟩]
  split
  · exact ⟨_, _, _, rfl, fun _ _ => by simp only [hlinks]⟩
  split
  · exact ⟨_, _, _, rfl, fun _ h => by cases h⟩
  · exact ⟨_, _, _, rfl, fun h => absurd h hENOENT⟩

/-- The folder blob `b` with a sibling `b-x` and a child `b/y`, listed in two pages: `b` and
`b-x` sort before `b/`, so `b` gets three links; its child `y` plays no part. -/
theorem azsGetattr_directory_nlink_sibling :
    let K : KeySet := ⟨[{ name := "b", metadata := [("hdi_isfolder", "true")] }, { name := "b-x" },
      { name := "b/y" }], by decide⟩
    let rs : List Reply :=
      [.list ⟨0, [{ name := "b", metadata := [("hdi_isfolder", "true")] }, { name := "b-x" }], "m"⟩,
        .list ⟨0, [{ name := "b/", isDirectory := true }], ""⟩]
    "b" ≠ "" ∧ Delivers 2 none 0 (hierarchicalListing K "b") rs ∧
    (∃ ret st script,
      azsGetattr [] ("/" ++ "b") none 0 {} (rs ++ [.property ⟨0, {}⟩]) = some ((ret, st), script) ∧
      (ret = 0 → st.kind = .dir →
        st.nlink = if 2 ≤ (hierarchicalListing K "b").countP (sortsBefore "b") then 3 else 2)) ∧
    azsGetattr [] ("/" ++ "b") none 0 {} (rs ++ [.property ⟨0, {}⟩]) =
      some ((0, { kind := .dir, nlink := 3, size := 4096 }), [.property ⟨0, {}⟩]) := by
  intro K rs
  have hL : hierarchicalListing K "b" =
      [{ name := "b", metadata := [("hdi_isfolder", "true")] }, { name := "b-x" }] ++
        [{ name := "b/", isDirectory := true }] := rfl
  have hd : Delivers 2 none 0 (hierarchicalListing K "b") rs := hL ▸
    @Delivers.page 2 none 0 _ [{ name := "b/", isDirectory := true }] _ "m" false (by decide)
      (by decide) (@Delivers.last 2 _ 0 [{ name := "b/", isDirectory := true }] false (by decide))
  exact ⟨by decide, hd, azsGetattr_directory_nlink [] K (by decide) hd 0 {} ⟨0, {}⟩ [], rfl⟩

end BlobFuse
