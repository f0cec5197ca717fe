import BlobFuse.DirectoryEmpty

/-! `azs_getattr`: the synthetic root, the local cache, then a listing under the path's
own name, two entries a page, scanned for the exact name `b` or `b/`. -/
namespace BlobFuse

/-- The file-type bits of `st_mode` that the code sets or tests. -/
inductive FileKind where
  | dir
  | reg
  | other
  deriving DecidableEq, Repr

/-- `struct stat`, the fields the modelled code writes. -/
structure Stat where
  kind : FileKind := .other
  nlink : Nat := 0
  size : Nat := 0
  mtime : Int := 0
  deriving DecidableEq, Repr

/-- `blobItem` and `dirSize` of the scan. -/
structure GetattrScan where
  blobItem : ListItem := {}
  dirSize : Nat := 0
  deriving DecidableEq, Repr

/-- The directory test on the matched item. -/
def isDirectorySignal (b : String) (item : ListItem) : Bool :=
  isDirectoryBlob 0 item.metadata || item.isDirectory || item.name == b ++ "/"

/-- The inner `for` over one page; `break` leaves the page. -/
def scanPage (b : String) : GetattrScan → List ListItem → GetattrScan
  | s, [] => s
  | s, item :: items =>
    let before := nameLt item.name.data (b ++ "/").data
    let s := if before then { s with dirSize := s.dirSize + 1 } else s
    if before && decide (2 < s.dirSize) && s.blobItem.name != "" then s
    else
      scanPage b
        (if s.blobItem.name == "" && pathEntry b item then
          { blobItem := item,
            dirSize := if s.dirSize == 0 && isDirectorySignal b item then 1 else s.dirSize }
        else s) items

/-- The outer `for` over the pages, from index 1 on a `skip_first` page. -/
def scanPages (b : String) (s : GetattrScan) (pages : List (List ListItem × Bool)) :
    GetattrScan :=
  pages.foldl (fun s (page, skip) => scanPage b s (if skip then page.drop 1 else page)) s

/-- `azs_getattr`: its return value and the `stat` it leaves. `cached` is the local cache:
`none` when `access` fails, else what `lstat` gives. -/
def azsGetattr (errorMapping : List (Int × Int)) (path : String)
    (cached : Option (Except Int Stat)) (now : Int) (stbuf : Stat) (script : List Reply) :
    Option ((Int × Stat) × List Reply) :=
  if path.utf8ByteSize = 1 then
    some ((0, { stbuf with kind := .dir, nlink := 2, size := 4096, mtime := now }), script)
  else
    match cached with
    | some (.error e) => some ((-e, stbuf), script)
    | some (.ok st) => some ((0, st), script)
    | none =>
      let b : String := ⟨path.data.drop 1⟩
      match listAllBlobsHierarchical script with
      | none => none
      | some (results, errno, script) =>
        if errno = 0 ∧ results ≠ [] then
          let s := scanPages b {} results
          if s.blobItem.name != "" && isDirectorySignal b s.blobItem then
            some ((0, { stbuf with kind := .dir, nlink := if 1 < s.dirSize then 3 else 2,
                                   size := 4096 }), script)
          else if s.blobItem.name != "" then
            (getBlobProperty script).map fun (p, script) =>
              ((0, { stbuf with kind := .reg, mtime := p.property.lastModified, nlink := 1,
                                size := p.property.size }), script)
          else some ((-ENOENT, stbuf), script)
        else if 0 < errno then some ((-mapErrno errorMapping errno, stbuf), script)
        else some ((-ENOENT, stbuf), script)

/-! ### The scan -/

theorem pathEntry_name_ne {b : String} (hb : b ≠ "") {e : ListItem} (h : pathEntry b e = true) :
    e.name ≠ "" := by
  intro he
  simp only [pathEntry, he, Bool.or_eq_true, beq_iff_eq] at h
  rcases h with h | h
  · exact hb h.symm
  · have := congrArg (·.data.length) h
    simp at this

theorem scanPage_blobItem {b : String} (hb : b ≠ "") :
    ∀ (s : GetattrScan) (items : List ListItem), (scanPage b s items).blobItem =
      if s.blobItem.name = "" then (items.find? (pathEntry b)).getD s.blobItem else s.blobItem
  | s, [] => by simp [scanPage]
  | s, item :: items => by
    obtain ⟨s1, hs1, heq⟩ : ∃ s1 : GetattrScan, s1.blobItem = s.blobItem ∧
        scanPage b s (item :: items) =
          if nameLt item.name.data (b ++ "/").data && decide (2 < s1.dirSize) &&
              s1.blobItem.name != "" then s1
          else scanPage b (if s1.blobItem.name == "" && pathEntry b item then
            { blobItem := item,
              dirSize := if s1.dirSize == 0 && isDirectorySignal b item then 1 else s1.dirSize }
            else s1) items :=
      ⟨_, by split <;> rfl, rfl⟩
    rw [heq, ← hs1]
    split
    · rename_i hbreak
      have hfound : s1.blobItem.name ≠ "" := by simp at hbreak; exact hbreak.2
      simp [hfound]
    · rw [scanPage_blobItem hb]
      by_cases hs : s1.blobItem.name = ""
      · by_cases hp : pathEntry b item = true
        · simp [hs, hp, pathEntry_name_ne hb hp]
        · simp [hs, hp]
      · simp [hs]

theorem scanPages_blobItem {b : String} (hb : b ≠ "") :
    ∀ (s : GetattrScan) (pages : List (List ListItem × Bool)), (scanPages b s pages).blobItem =
      if s.blobItem.name = "" then ((skipFlatten pages).find? (pathEntry b)).getD s.blobItem
      else s.blobItem
  | s, [] => by simp [scanPages, skipFlatten]
  | s, (page, skip) :: pages => by
    have ih := scanPages_blobItem hb (scanPage b s (if skip then page.drop 1 else page)) pages
    simp only [scanPages, List.foldl_cons] at ih ⊢
    rw [ih, scanPage_blobItem hb]
    have hsplit : skipFlatten ((page, skip) :: pages) =
        (if skip then page.drop 1 else page) ++ skipFlatten pages := rfl
    rw [hsplit, List.find?_append]
    by_cases hs : s.blobItem.name = ""
    · cases hf : (if skip then page.drop 1 else page).find? (pathEntry b) with
      | none => simp [hs]
      | some x => simp [hs, pathEntry_name_ne hb (List.find?_some hf)]
    · simp [hs]

theorem utf8ByteSize_slash_append {b : String} (hb : b ≠ "") : ("/" ++ b).utf8ByteSize ≠ 1 := by
  obtain ⟨c, cs, hcs⟩ : ∃ c cs, b.data = c :: cs := by
    cases h : b.data with
    | nil => exact absurd (String.ext h) hb
    | cons c cs => exact ⟨c, cs, rfl⟩
  have hc := Char.utf8Size_pos c
  have hslash := Char.utf8Size_pos '/'
  show String.utf8ByteSize.go ('/' :: b.data) ≠ 1
  simp only [hcs, String.utf8ByteSize.go]
  omega

/-- Off the root and the local cache, on a listing delivered in full, `azs_getattr` reports
what the listing's first entry standing for `b` is: a directory, a regular file with the
size and time of the property call, or, with no such entry, `-ENOENT`. -/
theorem azsGetattr_listed (errorMapping : List (Int × Int)) {b : String} (hb : b ≠ "")
    {L : List ListItem} {rs : List Reply} (hd : Delivers 2 none 0 L rs)
    (hne : ∀ x ∈ L, x.name ≠ "") (hchain : L.Chain' fun x y => x.name ≠ y.name)
    (now : Int) (stbuf : Stat) (pr : PropertyResponse) (rest : List Reply) :
    ∃ res, azsGetattr errorMapping ("/" ++ b) none now stbuf (rs ++ .property pr :: rest) =
      some res ∧
      match L.find? (pathEntry b) with
      | some e =>
        if isDirectorySignal b e then res.1.1 = 0 ∧ res.1.2.kind = .dir
        else res.1 = (0, { stbuf with kind := .reg, mtime := pr.property.lastModified,
                                      nlink := 1, size := pr.property.size })
      | none => res.1 = (-ENOENT, stbuf) := by
  obtain ⟨res, hlist, hres⟩ := listAllBlobsHierarchical_delivers hd hne hchain (.property pr :: rest)
  have hpath : (⟨("/" ++ b).data.drop 1⟩ : String) = b := rfl
  have hscan := scanPages_blobItem hb {} res
  simp only [show ({} : GetattrScan).blobItem.name = "" from rfl, if_true, hres] at hscan
  simp only [azsGetattr, utf8ByteSize_slash_append hb, if_false, hpath, hlist]
  cases hf : L.find? (pathEntry b) with
  | none =>
    have hname : (scanPages b {} res).blobItem.name = "" := by simp [hscan, hf]
    by_cases hres0 : res = [] <;> simp [hname, hres0]
  | some e =>
    have he : e.name ≠ "" := pathEntry_name_ne hb (List.find?_some hf)
    have hres0 : res ≠ [] := by
      rintro rfl
      rw [← hres] at hf
      simp [skipFlatten] at hf
    simp only [hf, Option.getD_some] at hscan
    by_cases hdir : isDirectorySignal b e = true <;> simp [hscan, he, hres0, hdir]

theorem isDirectoryBlob_zero (m : Metadata) :
    isDirectoryBlob 0 m = true ↔ ("hdi_isfolder", "true") ∈ m := by
  simp only [isDirectoryBlob, beq_self_eq_true, Bool.true_and, List.any_eq_true, Bool.and_eq_true,
    beq_iff_eq]
  constructor
  · rintro ⟨⟨k, v⟩, h, rfl, rfl⟩
    exact h
  · exact fun h => ⟨_, h, rfl, rfl⟩

theorem KeySet.eq_of_name_eq (K : KeySet) {k k' : Blob} (hk : k ∈ K.blobs) (hk' : k' ∈ K.blobs)
    (h : k.name = k'.name) : k = k' := by
  have hnodup : (K.blobs.map Blob.name).Nodup :=
    List.pairwise_map.mpr <| K.sorted.imp fun hlt heq => by
      rw [heq, nameLt_irrefl] at hlt; cases hlt
  exact List.inj_on_of_nodup_map hnodup hk hk' h

/-- For every key set and non-root path `/b` absent from the local cache, on a listing of
`b` delivered in pages of at most two entries, `azs_getattr` returns `-ENOENT` exactly when
no key is `b` or lies under `b/`; otherwise a directory when there is no key `b` or it
carries `hdi_isfolder=true`, and else a regular file with one link. -/
theorem azsGetattr_resolves_path (errorMapping : List (Int × Int)) (K : KeySet) {b : String}
    (hb : b ≠ "") {rs : List Reply} (hd : Delivers 2 none 0 (hierarchicalListing K b) rs)
    (now : Int) (stbuf : Stat) (pr : PropertyResponse) (rest : List Reply) :
    ∃ ret st script,
      azsGetattr errorMapping ("/" ++ b) none now stbuf (rs ++ .property pr :: rest) =
        some ((ret, st), script) ∧
      (ret = -ENOENT ↔ (∀ k ∈ K.blobs, k.name ≠ b) ∧ ∀ k ∈ K.blobs, underDirectory b k = false) ∧
      ((∃ k ∈ K.blobs, k.name = b ∨ underDirectory b k = true) →
        (ret = 0 ∧ st.kind = .dir ↔ (∀ k ∈ K.blobs, k.name ≠ b) ∨
            ∃ k ∈ K.blobs, k.name = b ∧ ("hdi_isfolder", "true") ∈ k.metadata) ∧
        (ret = 0 ∧ st.kind = .reg ∧ st.nlink = 1 ↔
            ∃ k ∈ K.blobs, k.name = b ∧ ("hdi_isfolder", "true") ∉ k.metadata)) := by
  obtain ⟨⟨⟨ret, st⟩, script⟩, hrun, hres⟩ := azsGetattr_listed errorMapping hb hd
    (hierarchicalListing_name_ne hb) (hierarchicalListing_chain K b) now stbuf pr rest
  refine ⟨ret, st, script, hrun, ?_⟩
  rw [hierarchicalListing_find?_pathEntry, pathEntryOf] at hres
  have hENOENT : (-ENOENT : Int) ≠ 0 := by decide
  cases hk : K.blobs.find? (·.name == b) with
  | some k =>
    have hkb : k.name = b := by simpa using List.find?_some hk
    have hkmem := List.mem_of_find?_eq_some hk
    have hsig : isDirectorySignal b { name := b, metadata := k.metadata } =
        isDirectoryBlob 0 k.metadata := by
      simp [isDirectorySignal, String.ext_iff]
    simp only [hk, hsig] at hres
    have hnot : ¬ ∀ k' ∈ K.blobs, k'.name ≠ b := fun h => h k hkmem hkb
    have huniq : ∀ k' ∈ K.blobs, k'.name = b → k' = k := fun k' hk' h =>
      K.eq_of_name_eq hk' hkmem (h.trans hkb.symm)
    by_cases hflag : isDirectoryBlob 0 k.metadata = true
    · simp only [hflag, if_true] at hres
      obtain ⟨rfl, hdir⟩ := hres
      have hf := (isDirectoryBlob_zero _).mp hflag
      refine ⟨by simp [hENOENT.symm, hnot], fun _ => ⟨?_, ?_⟩⟩
      · exact ⟨fun _ => .inr ⟨k, hkmem, hkb, hf⟩, fun _ => ⟨rfl, hdir⟩⟩
      · constructor
        · rintro ⟨-, h, -⟩; rw [hdir] at h; cases h
        · rintro ⟨k', hk', hname, hf'⟩; exact absurd (huniq k' hk' hname ▸ hf) hf'
    · simp only [hflag, if_false, Bool.false_eq_true, Prod.mk.injEq] at hres
      obtain ⟨rfl, rfl⟩ := hres
      have hf : ("hdi_isfolder", "true") ∉ k.metadata := fun h => hflag ((isDirectoryBlob_zero _).mpr h)
      refine ⟨by simp [hENOENT.symm, hnot], fun _ => ⟨?_, ⟨fun _ => ⟨k, hkmem, hkb, hf⟩, fun _ => ⟨rfl, rfl, rfl⟩⟩⟩⟩
      constructor
      · rintro ⟨-, h⟩; cases h
      · rintro (h | ⟨k', hk', hname, hf'⟩)
        · exact absurd h hnot
        · exact absurd (huniq k' hk' hname ▸ hf') hf
  | none =>
    have hnone : ∀ k ∈ K.blobs, k.name ≠ b := fun k hk' h => by
      simpa [h] using List.find?_eq_none.mp hk k hk'
    simp only [hk] at hres
    by_cases hch : K.blobs.any (underDirectory b) = true
    · have hsig : isDirectorySignal b { name := b ++ "/", isDirectory := true } = true := by
        simp [isDirectorySignal]
      simp only [hch, if_true, hsig] at hres
      obtain ⟨rfl, hdir⟩ := hres
      obtain ⟨k, hkmem, hkd⟩ := List.any_eq_true.mp hch
      refine ⟨⟨fun h => absurd h hENOENT.symm, fun h => by simp [h.2 k hkmem] at hkd⟩,
        fun _ => ⟨⟨fun _ => .inl hnone, fun _ => ⟨rfl, hdir⟩⟩, ?_⟩⟩
      constructor
      · rintro ⟨-, h, -⟩; rw [hdir] at h; cases h
      · rintro ⟨k', hk', hname, -⟩; exact absurd hname (hnone k' hk')
    · simp only [hch, if_false, Bool.false_eq_true, Prod.mk.injEq] at hres
      obtain ⟨rfl, rfl⟩ := hres
      have hnd : ∀ k ∈ K.blobs, underDirectory b k = false := fun k hk' => by
        simpa using (List.any_eq_false.mp (by simpa using hch)) k hk'
      refine ⟨⟨fun _ => ⟨hnone, hnd⟩, fun _ => rfl⟩, fun ⟨k, hk', h⟩ => ?_⟩
      rcases h with h | h
      · exact absurd h (hnone k hk')
      · simp [hnd k hk'] at h

/-- The virtual directory `b/` of the key `b/x` resolves to a directory. -/
theorem azsGetattr_resolves_virtual_directory :
    "b" ≠ "" ∧
    Delivers 2 none 0 (hierarchicalListing ⟨[{ name := "b/x" }], by simp⟩ "b")
      [.list ⟨0, [{ name := "b/", isDirectory := true }], ""⟩] ∧
    ∃ ret st script, azsGetattr [] ("/" ++ "b") none 0 {}
      ([.list ⟨0, [{ name := "b/", isDirectory := true }], ""⟩] ++ [.property ⟨0, {}⟩]) =
        some ((ret, st), script) ∧ ret = 0 ∧ st.kind = .dir := by
  have hd : Delivers 2 none 0 (hierarchicalListing ⟨[{ name := "b/x" }], by simp⟩ "b")
      [.list ⟨0, [{ name := "b/", isDirectory := true }], ""⟩] :=
    @Delivers.last 2 none 0 [_] false (by decide)
  obtain ⟨ret, st, script, hrun, -, hdir⟩ :=
    azsGetattr_resolves_path [] ⟨[{ name := "b/x" }], by simp⟩ (by decide) hd 0 {} ⟨0, {}⟩ []
  exact ⟨by decide, hd, ret, st, script, hrun,
    (hdir ⟨_, List.mem_singleton_self _, .inr rfl⟩).1.mpr (.inl (by simp))⟩

/-- After any listing replies on which the loop is still running, the 20th failed listing
call in a row, with a positive `errno`, makes `azs_getattr` return its `-map_errno`, the
replies after it unread. -/
theorem azsGetattr_listing_retries_exhausted (errorMapping : List (Int × Int)) (path : String)
    (hpath : path.utf8ByteSize ≠ 1) (now : Int) (stbuf : Stat) (pre : List ListResponse)
    (hrun : listAllLoop {} (pre.map .list) = none) (rs : List ListResponse) (r : ListResponse)
    (hfail : ∀ x ∈ rs ++ [r], x.errno ≠ 0) (hlen : failRun pre + rs.length + 1 = maxFailCount)
    (hpos : 0 < r.errno) (rest : List Reply) :
    azsGetattr errorMapping path none now stbuf ((pre ++ rs ++ [r]).map .list ++ rest) =
      some ((-mapErrno errorMapping r.errno, stbuf), rest) := by
  obtain ⟨st', hloop, -, herr⟩ := listAllLoop_failures rest (pre.foldl listAllStep {}) rs r hfail
    (by rw [foldl_listAllStep_failcount]; exact hlen)
  have hlist : listAllBlobsHierarchical ((pre ++ rs ++ [r]).map .list ++ rest) =
      some (st'.results, r.errno, rest) := by
    rw [listAllBlobsHierarchical, List.append_assoc, List.map_append, List.append_assoc,
      listAllLoop_running {} pre hrun, hloop]
    simp [herr]
  simp only [azsGetattr, hpath, ↓reduceIte, hlist]
  simp [hpos.ne', hpos]

/-- A first page holding `f`, with a next marker, then nineteen failures and a twentieth with
status 503. -/
theorem azsGetattr_twenty_listing_failures :
    ("/f").utf8ByteSize ≠ 1 ∧
    listAllLoop {} ([(⟨0, [{ name := "f" }], "m"⟩ : ListResponse)].map .list) = none ∧
    (∀ x ∈ List.replicate 19 (⟨500, [], ""⟩ : ListResponse) ++ [⟨503, [], ""⟩], x.errno ≠ 0) ∧
    failRun [(⟨0, [{ name := "f" }], "m"⟩ : ListResponse)] +
      (List.replicate 19 (⟨500, [], ""⟩ : ListResponse)).length + 1 = maxFailCount ∧
    (0 : Int) < 503 ∧
    azsGetattr [] "/f" none 0 {}
        (([(⟨0, [{ name := "f" }], "m"⟩ : ListResponse)] ++
          List.replicate 19 (⟨500, [], ""⟩ : ListResponse) ++
          [(⟨503, [], ""⟩ : ListResponse)]).map .list ++ []) =
      some ((-mapErrno [] 503, {}), []) :=
  ⟨by decide, by decide, by decide, rfl, by decide,
    azsGetattr_listing_retries_exhausted [] "/f" (by decide) 0 {} [⟨0, [{ name := "f" }], "m"⟩]
      (by decide) (List.replicate 19 ⟨500, [], ""⟩) ⟨503, [], ""⟩ (by decide) rfl (by decide) []⟩

/-- A blob `f` is reported as a regular file with return value 0 although its property
call failed: `st_size` and `st_mtime` come from the failed call's empty property. -/
theorem azsGetattr_ignores_property_failure (errorMapping : List (Int × Int)) (now : Int)
    (stbuf : Stat) :
    hierarchicalListing ⟨[{ name := "f" }], by simp⟩ "f" = [{ name := "f" }] ∧
    azsGetattr errorMapping "/f" none now stbuf
        [.list ⟨0, [{ name := "f" }], ""⟩, .property ⟨503, {}⟩] =
      some ((0, { stbuf with kind := .reg, mtime := 0, nlink := 1, size := 0 }), []) :=
  ⟨rfl, rfl⟩

/-- For the key set `{p/x}`, `is_directory_empty` finds `p` not empty while `azs_getattr`
gives it two links, its mark of an empty directory: `dirSize` counts the entries sorting
before `p/`, and the children of `p` are rolled up into `p/`. -/
theorem azsGetattr_nlink_misses_children (errorMapping : List (Int × Int))
    (codes : DirectoryCodes) (now : Int) (stbuf : Stat) :
    hierarchicalListing ⟨[{ name := "p/x" }], by simp⟩ "p" =
        [{ name := "p/", isDirectory := true }] ∧
    hierarchicalListing ⟨[{ name := "p/x" }], by simp⟩ "p/" = [{ name := "p/x" }] ∧
    azsGetattr errorMapping "/p" none now stbuf
        [.list ⟨0, [{ name := "p/", isDirectory := true }], ""⟩] =
      some ((0, { stbuf with kind := .dir, nlink := 2, size := 4096 }), []) ∧
    isDirectoryEmpty codes [.property ⟨404, {}⟩, .list ⟨0, [{ name := "p/x" }], ""⟩] =
      some (codes.notEmpty, []) :=
  ⟨rfl, rfl, rfl, rfl⟩

end BlobFuse
