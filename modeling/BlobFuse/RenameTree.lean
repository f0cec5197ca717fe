import BlobFuse.RenameScope
import BlobFuse.Delivery
import BlobFuse.CacheDirectory

/-! What `azs_rename_directory` moves when the server answers from a key set. A directory
with nothing to rename in the local cache is renamed through the remote pass alone: the
listing of `src/`, a single-file rename for each blob directly under it and a recursive
call for each virtual directory. Each blob under `src/` whose name below it has no empty
piece between slashes is renamed exactly once, to the same name below `dst/`; a blob whose
name there has an empty piece (`src//x`, `src/d/`) is listed with an empty
`prev_token_str`, or under such a virtual directory, and is never renamed. -/
namespace BlobFuse

/-- `srcPathStr.substr(1)`: the prefix the rename lists under. -/
def listingPrefix (src : String) : String := ⟨(withSlash src).data.drop 1⟩

/-- A name the rename can spell below a directory: non-empty pieces between slashes. -/
def goodName (r : List Char) : Bool := (r.splitOnP (· == '/')).all (!·.isEmpty)

/-- Key `k` lies under `pre` with a name below it the rename can spell. -/
def spelledUnder (pre : String) (k : Blob) : Bool :=
  match pre.data.isPrefixOf? k.name.data with
  | some r => goodName r
  | none => false

/-- The name of `k` below `pre`. -/
def relName (pre : String) (k : Blob) : String := ⟨k.name.data.drop pre.length⟩

/-- The source and destination of a single-file rename. -/
def RenameCall.renamed? : RenameCall → Option (String × String)
  | .renameSingleFile src dst => some (src, dst)
  | .rmdir _ => none

/-- The replies the server gives the remote pass on one listed entry: none for an entry the
pass skips, the replies of the recursive call for a virtual directory, the outcome `out`
gives a single-file rename. -/
def scriptEntry (rec : String → String → List Reply) (out : String → String → Int × Int)
    (srcPath dstPath : String) (item : ListItem) : List Reply :=
  if remoteOnly srcPath [] item then
    let token := prevToken srcPath item.name
    if item.isDirectory then rec (srcPath ++ token) (dstPath ++ token)
    else
      let o := out (srcPath ++ token) (dstPath ++ token)
      [.renamed o.1 o.2]
  else []

/-- The replies of a server answering from `K` to `azs_rename_directory src dst`: no blob at
the directory's own path, the listing of its prefix delivered by `deliver`, then the
replies for each listed entry, `out` giving each single-file rename's outcome. When every
such rename succeeds this is what the server answers: a directory's own blob, if any, is a
listed entry of its parent, renamed before the recursion reaches it (it sorts before the
directory's `/`), so the recursion finds none; and with the two trees apart, the renames
made before a listing move only keys outside the listed prefix, so every listing is
`K`'s. -/
def renameScript (K : KeySet) (deliver : String → List Reply)
    (out : String → String → Int × Int) : Nat → String → String → List Reply
  | 0, _, _ => []
  | fuel + 1, src, dst =>
    .property ⟨404, {}⟩ :: (deliver (listingPrefix src) ++
      (hierarchicalListing K (listingPrefix src)).flatMap
        (scriptEntry (renameScript K deliver out fuel) out (withSlash src) (withSlash dst)))

/-- Neither path lies in the other's tree, as in every rename the kernel passes on: it fails
a rename into the source's own subtree with `EINVAL` and one onto an ancestor with
`ENOTEMPTY`. -/
def treesApart (src dst : String) : Bool :=
  !(listingPrefix src).data.isPrefixOf (listingPrefix dst).data &&
    !(listingPrefix dst).data.isPrefixOf (listingPrefix src).data

/-! ### Names below the prefix -/

theorem first_slash : ∀ {rest : List Char}, '/' ∈ rest →
    ∃ d r, rest = d ++ '/' :: r ∧ '/' ∉ d ∧ rest.takeWhile (· != '/') = d
  | c :: cs, h => by
    by_cases hc : c = '/'
    · subst hc; exact ⟨[], cs, rfl, by simp, by simp⟩
    · obtain ⟨d, r, rfl, hd, htw⟩ := first_slash ((List.mem_cons.mp h).resolve_left (Ne.symm hc))
      exact ⟨c :: d, r, rfl, by simp [hd, Ne.symm hc], by simp [List.takeWhile_cons, hc, htw]⟩

theorem listEntry_cases {pre : String} {k : Blob} {x : ListItem} (h : listEntry pre k = some x) :
    (∃ r, k.name.data = pre.data ++ r ∧ '/' ∉ r ∧ x = { name := k.name, metadata := k.metadata }) ∨
    ∃ d r, k.name.data = pre.data ++ d ++ '/' :: r ∧ '/' ∉ d ∧
      x = { name := ⟨pre.data ++ d ++ ['/']⟩, isDirectory := true } := by
  unfold listEntry at h
  split at h
  · cases h
  · rename_i rest hrest
    have hk := isPrefixOf?_eq_some_iff.mp hrest
    split at h
    · obtain ⟨d, r, rfl, hd, htw⟩ := first_slash ‹_›
      cases h
      exact .inr ⟨d, r, by rw [hk, List.append_assoc], hd, by rw [htw]⟩
    · cases h
      exact .inl ⟨rest, hk, ‹_›, rfl⟩

theorem goodName_of_slash_free {w : List Char} (hw : '/' ∉ w) : goodName w = !w.isEmpty := by
  rw [goodName, List.splitOnP_eq_single _ _ fun c hc h => hw (by simp at h; exact h ▸ hc)]
  simp

theorem goodName_append_slash {d : List Char} (hd : '/' ∉ d) (r : List Char) :
    goodName (d ++ '/' :: r) = (!d.isEmpty && goodName r) := by
  rw [goodName, splitOnP_append_cons _ rfl, List.all_append, ← goodName, ← goodName,
    goodName_of_slash_free hd]

/-! ### `prev_token_str` -/

section Token
variable {src pre : String} (hsrc : (withSlash src).data = '/' :: pre.data)
  (hpre : pre.data.getLast? = some '/')
include hsrc hpre

theorem prevToken_below {name : String} {t : List Char} (hname : name.data = pre.data ++ t) :
    prevToken (withSlash src) name = if t.getLast? = some '/' then ⟨t.dropLast⟩ else ⟨t⟩ := by
  have hlen : (withSlash src).length = pre.length + 1 := congrArg List.length hsrc
  have hpre_len : pre.length = pre.data.length := rfl
  have hname_len : name.length = pre.data.length + t.length := by
    rw [String.length, hname, List.length_append]
  unfold prevToken
  rw [hname, hlen, hname_len, Nat.add_sub_cancel, hpre_len, Nat.add_sub_add_left, List.drop_left]
  rcases t.eq_nil_or_concat with rfl | ⟨u, c, rfl⟩
  · simp [hpre]
  · simp [List.dropLast_eq_take, ← List.append_assoc]

theorem prevToken_file {name : String} {r : List Char} (hname : name.data = pre.data ++ r)
    (hr : '/' ∉ r) : prevToken (withSlash src) name = ⟨r⟩ := by
  rw [prevToken_below hsrc hpre hname]
  rcases r.eq_nil_or_concat with rfl | ⟨u, c, rfl⟩
  · rfl
  · have hc : c ≠ '/' := fun h => hr (by simp [h])
    simp [hc]

theorem prevToken_dir (d : List Char) :
    prevToken (withSlash src) ⟨pre.data ++ d ++ ['/']⟩ = ⟨d⟩ := by
  have hname : (⟨pre.data ++ d ++ ['/']⟩ : String).data = pre.data ++ (d ++ ['/']) :=
    List.append_assoc _ _ _
  rw [prevToken_below hsrc hpre hname]
  simp

end Token

/-! ### The entries of a listing and the keys they stand for -/

theorem spelledUnder_iff {pre : String} {k : Blob} :
    spelledUnder pre k = true ↔ ∃ r, k.name.data = pre.data ++ r ∧ goodName r = true := by
  unfold spelledUnder
  split
  · rename_i r h
    have hk := isPrefixOf?_eq_some_iff.mp h
    refine ⟨fun hg => ⟨r, hk, hg⟩, fun ⟨r', hk', hg⟩ => ?_⟩
    rw [hk] at hk'
    rwa [List.append_cancel_left hk']
  · rename_i h
    refine ⟨Bool.noConfusion, fun ⟨r, hk, _⟩ => ?_⟩
    rw [isPrefixOf?_eq_some_iff.mpr hk] at h
    cases h

theorem listEntry_isSome {pre : String} {k : Blob} {r : List Char}
    (hk : k.name.data = pre.data ++ r) : ∃ x, listEntry pre k = some x := by
  rw [listEntry, isPrefixOf?_eq_some_iff.mpr hk]
  dsimp only
  split <;> exact ⟨_, rfl⟩

theorem listEntry_eq_of_name {K : KeySet} {pre : String} {k₁ k₂ : Blob} {x y : ListItem}
    (hk₁ : k₁ ∈ K.blobs) (hk₂ : k₂ ∈ K.blobs) (hx : listEntry pre k₁ = some x)
    (hy : listEntry pre k₂ = some y) (h : x.name = y.name) : x = y := by
  rcases listEntry_cases hx with ⟨r₁, h₁, hr₁, rfl⟩ | ⟨d₁, r₁, h₁, hd₁, rfl⟩ <;>
    rcases listEntry_cases hy with ⟨r₂, h₂, hr₂, rfl⟩ | ⟨d₂, r₂, h₂, hd₂, rfl⟩ <;>
    simp only [ListItem.mk.injEq, String.ext_iff, List.append_assoc, List.append_cancel_left_eq,
      and_true] at h ⊢
  · obtain rfl := K.eq_of_name_eq hk₁ hk₂ (String.ext h)
    exact ⟨rfl, trivial, rfl⟩
  · rw [h₁, List.append_cancel_left_eq] at h
    exact (hr₁ (h ▸ by simp)).elim
  · rw [h₂, List.append_cancel_left_eq] at h
    exact (hr₂ (h ▸ by simp)).elim
  · exact h

theorem mem_destutter'_name (R : ListItem → ListItem → Prop) [DecidableRel R]
    (hR : ∀ x y, ¬R x y → x.name = y.name) :
    ∀ (a : ListItem) (l : List ListItem), ∀ c ∈ a :: l, ∃ b ∈ l.destutter' R a, b.name = c.name
  | a, [], c, hc => ⟨a, by simp [List.destutter'_nil], by simp_all⟩
  | a, b :: l, c, hc => by
    by_cases hab : R a b
    · rw [List.destutter'_cons_pos _ hab]
      rcases List.mem_cons.mp hc with rfl | hc
      · exact ⟨c, List.mem_cons_self _ _, rfl⟩
      · obtain ⟨e, he, hname⟩ := mem_destutter'_name R hR b l c hc
        exact ⟨e, List.mem_cons_of_mem _ he, hname⟩
    · rw [List.destutter'_cons_neg _ hab]
      rcases List.mem_cons.mp hc with rfl | hc
      · exact mem_destutter'_name R hR c l c (List.mem_cons_self _ _)
      · rcases List.mem_cons.mp hc with rfl | hc
        · obtain ⟨e, he, hname⟩ := mem_destutter'_name R hR a l a (List.mem_cons_self _ _)
          exact ⟨e, he, hname.trans (hR a c hab)⟩
        · exact mem_destutter'_name R hR a l c (List.mem_cons_of_mem _ hc)

theorem mem_hierarchicalListing {K : KeySet} {pre : String} {k : Blob} {x : ListItem}
    (hk : k ∈ K.blobs) (hx : listEntry pre k = some x) : x ∈ hierarchicalListing K pre := by
  have hmem : x ∈ K.blobs.filterMap (listEntry pre) := List.mem_filterMap.mpr ⟨k, hk, hx⟩
  obtain ⟨b, hb, hname⟩ : ∃ b ∈ hierarchicalListing K pre, b.name = x.name := by
    unfold hierarchicalListing
    cases hl : K.blobs.filterMap (listEntry pre) with
    | nil => rw [hl] at hmem; cases hmem
    | cons a l =>
      rw [hl] at hmem
      rw [List.destutter_cons']
      exact mem_destutter'_name _ (fun _ _ h => of_not_not h) a l x hmem
  obtain ⟨k', hk', hb'⟩ := List.mem_filterMap.mp ((List.destutter_sublist _ _).subset hb)
  rwa [listEntry_eq_of_name hk' hk hb' hx hname] at hb

theorem hierarchicalListing_nodup (K : KeySet) (pre : String) :
    (hierarchicalListing K pre).Nodup := by
  have strict : ∀ l : List ListItem,
      l.Pairwise (fun x y => x.name = y.name ∨ nameLt x.name.data y.name.data = true) →
      l.Chain' (fun x y => x.name ≠ y.name) →
      l.Pairwise fun x y => nameLt x.name.data y.name.data = true := by
    intro l
    induction l with
    | nil => exact fun _ _ => .nil
    | cons a t ih =>
      intro hs hc
      have iht := ih hs.of_cons hc.tail
      refine List.pairwise_cons.mpr ⟨fun c hct => ?_, iht⟩
      cases t with
      | nil => cases hct
      | cons b t =>
        have hab : nameLt a.name.data b.name.data = true :=
          (List.rel_of_pairwise_cons hs (List.mem_cons_self _ _)).resolve_left
            (List.chain'_cons.mp hc).1
        rcases List.mem_cons.mp hct with rfl | hct
        · exact hab
        · exact nameLt_trans hab (List.rel_of_pairwise_cons iht hct)
  exact (strict _ (hierarchicalListing_sorted K pre) (hierarchicalListing_chain K pre)).imp
    fun h heq => by rw [heq, nameLt_irrefl] at h; cases h

theorem KeySet.nodup (K : KeySet) : K.blobs.Nodup :=
  K.sorted.imp fun h heq => by rw [heq, nameLt_irrefl] at h; cases h

/-- The keys each entry of a listing stands for, taken entry after entry, are the keys under
the prefix: every key has one entry, and an entry is listed once. -/
theorem hierarchicalListing_flatMap_keys (K : KeySet) (pre : String) :
    ((hierarchicalListing K pre).flatMap fun x =>
        K.blobs.filter fun k => listEntry pre k == some x && spelledUnder pre k).Perm
      (K.blobs.filter (spelledUnder pre)) := by
  refine (List.perm_ext_iff_of_nodup ?_ (K.nodup.filter _)).mpr fun k => ?_
  · refine List.nodup_flatMap.mpr ⟨fun x _ => K.nodup.filter _,
      (hierarchicalListing_nodup K pre).imp fun {x y} hxy k hkx hky => hxy ?_⟩
    simp only [List.mem_filter, Bool.and_eq_true, beq_iff_eq] at hkx hky
    exact Option.some.inj (hkx.2.1.symm.trans hky.2.1)
  · simp only [List.mem_flatMap, List.mem_filter, Bool.and_eq_true, beq_iff_eq]
    constructor
    · rintro ⟨x, -, hk, -, hs⟩
      exact ⟨hk, hs⟩
    · rintro ⟨hk, hs⟩
      obtain ⟨r, hr, -⟩ := spelledUnder_iff.mp hs
      obtain ⟨x, hx⟩ := listEntry_isSome hr
      exact ⟨x, mem_hierarchicalListing hk hx, hk, hx, hs⟩

theorem listEntry_file {pre : String} {k : Blob} {r : List Char}
    (hk : k.name.data = pre.data ++ r) (hr : '/' ∉ r) :
    listEntry pre k = some { name := k.name, metadata := k.metadata } := by
  simp [listEntry, isPrefixOf?_eq_some_iff.mpr hk, hr]

theorem listEntry_dir {pre : String} {k : Blob} {d r : List Char}
    (hk : k.name.data = pre.data ++ d ++ '/' :: r) (hd : '/' ∉ d) :
    listEntry pre k = some { name := ⟨pre.data ++ d ++ ['/']⟩, isDirectory := true } := by
  have htw : (d ++ '/' :: r).takeWhile (· != '/') = d := by
    rw [List.takeWhile_append_of_pos fun c hc => by simpa using ne_of_mem_of_not_mem hc hd]
    simp
  rw [List.append_assoc] at hk
  simp [listEntry, isPrefixOf?_eq_some_iff.mpr hk, htw]

theorem filter_listEntry_file {K : KeySet} {pre : String} {k₀ : Blob} (hk₀ : k₀ ∈ K.blobs)
    {r : List Char} (h₀ : k₀.name.data = pre.data ++ r) (hr : '/' ∉ r) :
    (K.blobs.filter fun k => listEntry pre k == some { name := k₀.name, metadata := k₀.metadata } &&
      spelledUnder pre k).Perm (if r = [] then [] else [k₀]) := by
  have hgood : spelledUnder pre k₀ = !r.isEmpty := by
    cases hs : spelledUnder pre k₀
    · cases r with
      | nil => rfl
      | cons c r' =>
        exact absurd (spelledUnder_iff.mpr ⟨_, h₀, by rw [goodName_of_slash_free hr]; rfl⟩) (by simp [hs])
    · obtain ⟨r', h', hg⟩ := spelledUnder_iff.mp hs
      rw [h₀, List.append_cancel_left_eq] at h'
      subst h'
      rw [goodName_of_slash_free hr] at hg
      exact hg.symm
  refine (List.perm_ext_iff_of_nodup (K.nodup.filter _) (by split <;> simp)).mpr fun k => ?_
  simp only [List.mem_filter, Bool.and_eq_true, beq_iff_eq]
  constructor
  · rintro ⟨hk, he, hs⟩
    rcases listEntry_cases he with ⟨r', -, -, hx⟩ | ⟨d, r', -, -, hx⟩
    · simp only [ListItem.mk.injEq] at hx
      obtain rfl := K.eq_of_name_eq hk hk₀ hx.1.symm
      cases r <;> simp_all
    · simp at hx
  · intro hk
    have hne : r ≠ [] := by rintro rfl; simp at hk
    rw [if_neg hne, List.mem_singleton] at hk
    subst hk
    exact ⟨hk₀, listEntry_file h₀ hr, by simp [hgood, hne]⟩

theorem filter_listEntry_dir (K : KeySet) (pre : String) {d : List Char} (hd : '/' ∉ d) :
    (K.blobs.filter fun k =>
      listEntry pre k == some { name := ⟨pre.data ++ d ++ ['/']⟩, isDirectory := true } &&
        spelledUnder pre k) =
      if d = [] then [] else K.blobs.filter (spelledUnder ⟨pre.data ++ d ++ ['/']⟩) := by
  have entry : ∀ k : Blob, listEntry pre k = some { name := ⟨pre.data ++ d ++ ['/']⟩, isDirectory := true } →
      ∃ r, k.name.data = pre.data ++ d ++ '/' :: r := fun k he => by
    rcases listEntry_cases he with ⟨r, -, -, hx⟩ | ⟨d', r, hk, -, hx⟩
    · simp at hx
    · simp only [ListItem.mk.injEq, String.ext_iff, List.append_assoc, List.append_cancel_left_eq,
        List.append_left_inj, and_true] at hx
      exact ⟨r, hx ▸ hk⟩
  split
  · rename_i h0
    subst h0
    refine List.filter_eq_nil_iff.mpr fun k _ h => ?_
    simp only [Bool.and_eq_true, beq_iff_eq] at h
    obtain ⟨r, hk⟩ := entry k h.1
    obtain ⟨r', h', hg⟩ := spelledUnder_iff.mp h.2
    rw [hk, List.append_nil, List.append_cancel_left_eq] at h'
    rw [← h', ← List.nil_append ('/' :: r), goodName_append_slash (List.not_mem_nil _)] at hg
    simp at hg
  · rename_i hne
    refine List.filter_congr fun k _ => ?_
    rw [Bool.eq_iff_iff, Bool.and_eq_true, beq_iff_eq]
    constructor
    · rintro ⟨he, hs⟩
      obtain ⟨r, hk⟩ := entry k he
      obtain ⟨r', h', hg⟩ := spelledUnder_iff.mp hs
      rw [hk, List.append_assoc, List.append_cancel_left_eq] at h'
      rw [← h', goodName_append_slash hd] at hg
      exact spelledUnder_iff.mpr ⟨r, by rw [hk]; simp, (Bool.and_eq_true _ _ ▸ hg).2⟩
    · intro hs
      obtain ⟨r, hk, hg⟩ := spelledUnder_iff.mp hs
      have hk' : k.name.data = pre.data ++ d ++ '/' :: r := by rw [hk]; simp
      refine ⟨listEntry_dir hk' hd, spelledUnder_iff.mpr ⟨d ++ '/' :: r, by rw [hk']; simp, ?_⟩⟩
      rw [goodName_append_slash hd]
      simp [hne, hg]

/-! ### The rename on a server answering from a key set -/

theorem relName_eq {pre : String} {k : Blob} {r : List Char} (hk : k.name.data = pre.data ++ r) :
    relName pre k = ⟨r⟩ := by
  simp only [relName, hk]
  exact congrArg String.mk (List.drop_left _ _)

theorem listingPrefix_eq {src pre : String} (hsrc : (withSlash src).data = '/' :: pre.data) :
    listingPrefix src = pre := by
  simp [listingPrefix, hsrc]

theorem azsRenameDirectory_notFound (errorMapping : List (Int × Int))
    (localDir : String → Option (List DirEntry)) (fuel : Nat) (src dst : String)
    (hlocal : ((localDir (withSlash src)).getD []).filter renamedLocally = [])
    (script : List Reply) (calls : List RenameCall) :
    azsRenameDirectory errorMapping localDir (fuel + 1) src dst
        ⟨.property ⟨404, {}⟩ :: script, calls⟩ =
      (listAllBlobsHierarchical script).bind fun (results, errno, script') =>
        if errno ≠ 0 then some (-mapErrno errorMapping errno, ⟨script', calls⟩)
        else ((skipFlatten results).foldlM
            (renameRemoteEntry (azsRenameDirectory errorMapping localDir fuel) (withSlash src)
              (withSlash dst) []) ⟨script', calls⟩).bind fun w => some (0, azsRmdir src w) := by
  simp [azsRenameDirectory, hlocal, ENOENT]

theorem foldlM_renameRemoteEntry_perm
    {rec : String → String → RenameWorld → Option (Int × RenameWorld)} {srcPath dstPath : String}
    (L : List ListItem) (chunk : ListItem → List Reply) (pairs : ListItem → List (String × String))
    (hstep : ∀ x ∈ L, ∀ calls rest, ∃ new,
      renameRemoteEntry rec srcPath dstPath [] ⟨chunk x ++ rest, calls⟩ x =
        some ⟨rest, calls ++ new⟩ ∧ (new.filterMap RenameCall.renamed?).Perm (pairs x)) :
    ∀ calls rest, ∃ new,
      L.foldlM (renameRemoteEntry rec srcPath dstPath []) ⟨L.flatMap chunk ++ rest, calls⟩ =
        some ⟨rest, calls ++ new⟩ ∧ (new.filterMap RenameCall.renamed?).Perm (L.flatMap pairs) := by
  induction L with
  | nil => exact fun calls rest => ⟨[], by simp, by simp⟩
  | cons x L ih =>
    intro calls rest
    obtain ⟨new₁, h₁, hp₁⟩ := hstep x (List.mem_cons_self _ _) calls (L.flatMap chunk ++ rest)
    obtain ⟨new₂, h₂, hp₂⟩ :=
      ih (fun y hy => hstep y (List.mem_cons_of_mem _ hy)) (calls ++ new₁) rest
    refine ⟨new₁ ++ new₂, ?_, ?_⟩
    · simp [List.foldlM_cons, h₁, h₂]
    · rw [List.filterMap_append, List.flatMap_cons]
      exact hp₁.append hp₂

/-- Keys under `pre` are shorter than `pre` and two characters for each call the recursion
has left: a virtual directory takes at least a character and a `/`. -/
def FitsFuel (K : KeySet) (fuel : Nat) (pre : String) : Prop :=
  ∀ k ∈ K.blobs, pre.data <+: k.name.data → k.name.length < pre.length + 2 * fuel

namespace FitsFuel

variable {K : KeySet} {fuel : Nat} {pre : String} {d : List Char}

theorem pos (hfits : FitsFuel K (fuel + 1) pre) {k : Blob} (hk : k ∈ K.blobs) {r : List Char}
    (hkd : k.name.data = pre.data ++ d ++ '/' :: r) (hd : d ≠ []) : 0 < fuel := by
  have hlen : k.name.data.length < pre.data.length + 2 * (fuel + 1) :=
    hfits k hk ⟨d ++ '/' :: r, by rw [hkd, List.append_assoc]⟩
  have hd1 := List.length_pos.mpr hd
  rw [hkd] at hlen
  simp only [List.length_append, List.length_cons] at hlen
  omega

theorem sub (hfits : FitsFuel K (fuel + 1) pre) (hd : d ≠ []) :
    FitsFuel K fuel ⟨pre.data ++ d ++ ['/']⟩ := fun k hk hpk => by
  have h := hfits k hk (List.IsPrefix.trans ⟨d ++ ['/'], by simp⟩ hpk)
  have hpre : pre.length = pre.data.length := rfl
  have hd1 := List.length_pos.mpr hd
  show k.name.length < (pre.data ++ d ++ ['/']).length + 2 * fuel
  simp only [List.length_append, List.length_singleton]
  omega

end FitsFuel

theorem withSlash_append_relName {p : String} (hp : p ≠ "") {pre : String} {d r : List Char}
    (hd : d ≠ []) {k : Blob} (hk : k.name.data = pre.data ++ d ++ ['/'] ++ r) :
    withSlash (p ++ ⟨d⟩) ++ relName ⟨pre.data ++ d ++ ['/']⟩ k = p ++ relName pre k := by
  have hk' : k.name.data = pre.data ++ (d ++ '/' :: r) := by rw [hk]; simp
  rw [relName_eq hk, relName_eq hk', withSlash_append hp fun h => hd (congrArg String.data h)]
  simp [String.ext_iff]

/-- What a rename of `src` to `dst` on the server's replies does: it reads them all, returns 0,
renames each key under `pre` with a name it can spell to the same name below `dst`, and
ends with the removal of `src`. -/
def RenamesKeys (K : KeySet) (src dst pre : String) (calls : List RenameCall) (rest : List Reply)
    (res : Option (Int × RenameWorld)) : Prop :=
  ∃ new, res = some (0, ⟨rest, calls ++ new⟩) ∧
    (new.filterMap RenameCall.renamed?).Perm ((K.blobs.filter (spelledUnder pre)).map fun k =>
      (withSlash src ++ relName pre k, withSlash dst ++ relName pre k)) ∧
    new.getLast? = some (.rmdir src)

section Tree
variable (errorMapping : List (Int × Int)) {localDir : String → Option (List DirEntry)}
  {K : KeySet} {deliver : String → List Reply} {out : String → String → Int × Int}

theorem renameRemoteEntry_keys {fuel : Nat}
    (ih : ∀ src dst pre calls rest, (withSlash src).data = '/' :: pre.data →
      pre.data.getLast? = some '/' → dst ≠ "" → 0 < fuel → FitsFuel K fuel pre →
      RenamesKeys K src dst pre calls rest (azsRenameDirectory errorMapping localDir fuel src dst
        ⟨renameScript K deliver out fuel src dst ++ rest, calls⟩))
    {src dst pre : String} (hsrc : (withSlash src).data = '/' :: pre.data)
    (hpre : pre.data.getLast? = some '/') (hdst : dst ≠ "") (hfits : FitsFuel K (fuel + 1) pre)
    {x : ListItem} (hx : x ∈ hierarchicalListing K pre) (calls : List RenameCall)
    (rest : List Reply) :
    ∃ new, renameRemoteEntry (azsRenameDirectory errorMapping localDir fuel) (withSlash src)
        (withSlash dst) []
        ⟨scriptEntry (renameScript K deliver out fuel) out (withSlash src) (withSlash dst) x ++ rest,
          calls⟩ x = some ⟨rest, calls ++ new⟩ ∧
      (new.filterMap RenameCall.renamed?).Perm
        ((K.blobs.filter fun k => listEntry pre k == some x && spelledUnder pre k).map fun k =>
          (withSlash src ++ relName pre k, withSlash dst ++ relName pre k)) := by
  have hpre_ne : pre.data ≠ [] := fun h => by simp [h] at hpre
  have hsrc_ne : withSlash src ≠ "" := fun h => by simp [h] at hsrc
  obtain ⟨k, hk, hkx⟩ := List.mem_filterMap.mp ((List.destutter_sublist _ _).subset hx)
  rcases listEntry_cases hkx with ⟨r, hkr, hr, rfl⟩ | ⟨d, r, hkd, hd, rfl⟩
  · -- a blob directly under the prefix
    have hblock := (filter_listEntry_file hk hkr hr).map fun k =>
      (withSlash src ++ relName pre k, withSlash dst ++ relName pre k)
    have hname : k.name ≠ "" := fun h => hpre_ne (List.append_eq_nil.mp (hkr ▸ congrArg String.data h)).1
    by_cases hr0 : r = []
    · subst hr0
      rw [if_pos rfl] at hblock
      refine ⟨[], ?_, by simpa using hblock.symm⟩
      simp [renameRemoteEntry, scriptEntry, remoteOnly, prevToken_file hsrc hpre hkr hr]
    · rw [if_neg hr0] at hblock
      have htok : (⟨r⟩ : String) ≠ "" := fun h => hr0 (congrArg String.data h)
      refine ⟨[.renameSingleFile (withSlash src ++ ⟨r⟩) (withSlash dst ++ ⟨r⟩)], ?_, ?_⟩
      · simp [renameRemoteEntry, scriptEntry, remoteOnly, prevToken_file hsrc hpre hkr hr, hname, htok,
          azsRenameSingleFile]
      · simpa [RenameCall.renamed?, relName_eq hkr] using hblock.symm
  · -- the virtual directory of the first piece `d` of a deeper key
    have hblock := filter_listEntry_dir K pre hd
    have htok := prevToken_dir hsrc hpre d
    have hname : (⟨pre.data ++ (d ++ ['/'])⟩ : String) ≠ "" := fun h => by
      simpa using congrArg (·.data.length) h
    rw [List.append_assoc] at htok
    by_cases hd0 : d = []
    · subst hd0
      rw [if_pos rfl] at hblock
      refine ⟨[], ?_, by rw [hblock]; exact .nil⟩
      have hempty : (⟨[]⟩ : String) = "" := rfl
      rw [List.nil_append] at htok
      simp [renameRemoteEntry, scriptEntry, remoteOnly, htok, hempty]
    · rw [if_neg hd0] at hblock
      have hdtok : (⟨d⟩ : String) ≠ "" := fun h => hd0 (congrArg String.data h)
      have hsrc' : (withSlash (withSlash src ++ ⟨d⟩)).data = '/' :: (pre.data ++ d ++ ['/']) := by
        rw [withSlash_append hsrc_ne hdtok]; simp [hsrc]
      obtain ⟨new, hrun, hperm, -⟩ := ih (withSlash src ++ ⟨d⟩) (withSlash dst ++ ⟨d⟩)
        ⟨pre.data ++ d ++ ['/']⟩ calls rest hsrc' (by simp) (append_ne_empty hdtok)
        (hfits.pos hk hkd hd0) (hfits.sub hd0)
      refine ⟨new, by simp [renameRemoteEntry, scriptEntry, remoteOnly, htok, hdtok, hname, hrun], ?_⟩
      rw [hblock]
      refine hperm.trans (List.Perm.of_eq (List.map_congr_left fun k' hk' => ?_))
      obtain ⟨r', hkr', -⟩ := spelledUnder_iff.mp (List.mem_filter.mp hk').2
      rw [withSlash_append_relName hsrc_ne hd0 hkr',
        withSlash_append_relName (withSlash_ne_empty hdst) hd0 hkr']

/-- At every depth the rename, on the server's replies, renames exactly the keys under its
prefix it can spell: the listing is read whole, each entry renames the keys it stands
for, and the entries together stand for every key under the prefix once. -/
theorem azsRenameDirectory_renamesKeys
    (hlocal : ∀ p, ((localDir p).getD []).filter renamedLocally = []) {n : Nat}
    (hdeliver : ∀ pre, Delivers n none 0 (hierarchicalListing K pre) (deliver pre)) :
    ∀ (fuel : Nat) (src dst pre : String) (calls : List RenameCall) (rest : List Reply),
      (withSlash src).data = '/' :: pre.data → pre.data.getLast? = some '/' → dst ≠ "" →
      0 < fuel → FitsFuel K fuel pre →
      RenamesKeys K src dst pre calls rest (azsRenameDirectory errorMapping localDir fuel src dst
        ⟨renameScript K deliver out fuel src dst ++ rest, calls⟩)
  | 0, _, _, _, _, _, _, _, _, h, _ => absurd h (lt_irrefl 0)
  | fuel + 1, src, dst, pre, calls, rest, hsrc, hpre, hdst, _, hfits => by
    have ih := azsRenameDirectory_renamesKeys hlocal hdeliver fuel
    have hpre_ne : pre ≠ "" := fun h => by simp [h] at hpre
    let L := hierarchicalListing K pre
    let entry := scriptEntry (renameScript K deliver out fuel) out (withSlash src) (withSlash dst)
    let pair := fun k => (withSlash src ++ relName pre k, withSlash dst ++ relName pre k)
    obtain ⟨res, hlist, hres⟩ := listAllBlobsHierarchical_delivers (hdeliver pre)
      (hierarchicalListing_name_ne hpre_ne) (hierarchicalListing_chain K pre) (L.flatMap entry ++ rest)
    obtain ⟨new, hfold, hperm⟩ := foldlM_renameRemoteEntry_perm L entry
      (fun x => (K.blobs.filter fun k => listEntry pre k == some x && spelledUnder pre k).map pair)
      (fun x hx => renameRemoteEntry_keys errorMapping ih hsrc hpre hdst hfits hx) calls rest
    refine ⟨new ++ [.rmdir src], ?_, ?_, by simp⟩
    · rw [renameScript, listingPrefix_eq hsrc, List.cons_append, List.append_assoc,
        azsRenameDirectory_notFound _ _ _ _ _ (hlocal _), hlist]
      simp [hres, hfold, azsRmdir]
    · rw [List.filterMap_append]
      refine (List.Perm.append_right _ hperm).trans ?_
      rw [← List.map_flatMap] at *
      simpa [RenameCall.renamed?] using (hierarchicalListing_flatMap_keys K pre).map pair

end Tree

/-! ### From the root of the source -/

theorem withSlash_root {s : String} (hs : s ≠ "") :
    (withSlash ("/" ++ s)).data = '/' :: (s ++ "/").data := by
  rw [withSlash_append (by decide) hs]; simp

theorem not_under_of_treesApart {s dst : String} (hs : s ≠ "") (hdst : dst ≠ "")
    (hapart : treesApart ("/" ++ s) dst) (r : String) :
    ¬ ("/" ++ s ++ "/").data <+: (withSlash dst ++ r).data := by
  intro hpre
  obtain ⟨c, D, hD⟩ := List.exists_cons_of_ne_nil fun h => withSlash_ne_empty hdst (String.ext h)
  have hsrc : listingPrefix ("/" ++ s) = s ++ "/" := listingPrefix_eq (withSlash_root hs)
  have hdst' : (listingPrefix dst).data = D := by simp [listingPrefix, hD]
  simp only [String.data_append, hD] at hpre
  have htail : (s ++ "/").data <+: D ++ r.data := by
    simpa using (List.cons_prefix_cons.mp (by simpa using hpre)).2
  simp only [treesApart, hsrc, hdst', Bool.and_eq_true, Bool.not_eq_true',
    Bool.eq_false_iff, ne_eq, List.isPrefixOf_iff_prefix] at hapart
  rcases List.prefix_or_prefix_of_prefix htail (List.prefix_append D r.data) with h | h
  exacts [hapart.1 h, hapart.2 h]

theorem fitsFuel_root {K : KeySet} {fuel : Nat} (hfuel : ∀ k ∈ K.blobs, k.name.length ≤ fuel)
    (pre : String) : FitsFuel K (fuel + 1) pre := fun k hk _ => by
  have := hfuel k hk
  simp only [String.length] at *
  omega

theorem rootPairs (K : KeySet) {s : String} (hs : s ≠ "") (dst : String) :
    (K.blobs.filter (spelledUnder (s ++ "/"))).map (fun k =>
        (withSlash ("/" ++ s) ++ relName (s ++ "/") k, withSlash dst ++ relName (s ++ "/") k)) =
      (K.blobs.filter (spelledUnder (s ++ "/"))).map fun k =>
        ("/" ++ k.name, withSlash dst ++ relName (s ++ "/") k) := by
  refine List.map_congr_left fun k hk => ?_
  obtain ⟨r, hkr, -⟩ := spelledUnder_iff.mp (List.mem_filter.mp hk).2
  rw [relName_eq hkr, withSlash_append (by decide) hs]
  simp [String.ext_iff, hkr]

/-- For every key set and every `dst` apart from `/s`, `azs_rename_directory` of `/s` to
`dst`, with nothing but dot files in the local cache and a server answering from the key
set (the property call of `/s` answered 404, each listing delivered in pages of any size, with boundary repeats and
retried failures, each single-file rename succeeding), returns 0 having read exactly the
server's replies; it renames each key under `s/` whose name below it has no empty piece
between slashes once, to the same name below `dst`, outside the tree of `/s`, renames
nothing else, and ends with `azs_rmdir` of `/s`. -/
theorem azsRenameDirectory_moves_keys (errorMapping : List (Int × Int))
    (localDir : String → Option (List DirEntry))
    (hlocal : ∀ p, ((localDir p).getD []).filter renamedLocally = []) (K : KeySet) {n : Nat}
    {deliver : String → List Reply}
    (hdeliver : ∀ pre, Delivers n none 0 (hierarchicalListing K pre) (deliver pre))
    {fuel : Nat} (hfuel : ∀ k ∈ K.blobs, k.name.length ≤ fuel) {s dst : String} (hs : s ≠ "")
    (hdst : dst ≠ "") (hapart : treesApart ("/" ++ s) dst) (calls : List RenameCall)
    (rest : List Reply) :
    ∃ new, azsRenameDirectory errorMapping localDir (fuel + 1) ("/" ++ s) dst
        ⟨renameScript K deliver (fun _ _ => (0, 0)) (fuel + 1) ("/" ++ s) dst ++ rest, calls⟩ =
        some (0, ⟨rest, calls ++ new⟩) ∧
      (new.filterMap RenameCall.renamed?).Perm
        ((K.blobs.filter (spelledUnder (s ++ "/"))).map fun k =>
          ("/" ++ k.name, withSlash dst ++ relName (s ++ "/") k)) ∧
      (∀ p ∈ new.filterMap RenameCall.renamed?, ¬ ("/" ++ s ++ "/").data <+: p.2.data) ∧
      new.getLast? = some (.rmdir ("/" ++ s)) := by
  obtain ⟨new, hrun, hperm, hlast⟩ := azsRenameDirectory_renamesKeys errorMapping hlocal hdeliver
    (fuel + 1) ("/" ++ s) dst (s ++ "/") calls rest (withSlash_root hs) (by simp) hdst
    (Nat.succ_pos _) (fitsFuel_root hfuel _)
  have hperm' := rootPairs K hs dst ▸ hperm
  refine ⟨new, hrun, hperm', fun p hp => ?_, hlast⟩
  obtain ⟨k, -, rfl⟩ := List.mem_map.mp (hperm'.mem_iff.mp hp)
  exact not_under_of_treesApart hs hdst hapart _

theorem Delivers.whole (K : KeySet) (pre : String) :
    Delivers K.blobs.length none 0 (hierarchicalListing K pre)
      [.list ⟨0, hierarchicalListing K pre, ""⟩] :=
  .last false (by
    simpa [repeatOf] using (List.destutter_sublist _ _).length_le.trans (List.length_filterMap_le _ _))

/-- `/a` holds the folder blob `a/d`, the blobs `a/d/y` and `a/x`, and `a//z`, whose name below
`a/` starts with an empty piece: renaming `/a` to `/b` renames `a/d`, `a/d/y` and `a/x`, and
leaves `a//z` behind. -/
theorem azsRenameDirectory_moves_keys_nested :
    let K : KeySet := ⟨[{ name := "a//z" }, { name := "a/d", metadata := [("hdi_isfolder", "true")] },
      { name := "a/d/y" }, { name := "a/x" }], by decide⟩
    let deliver : String → List Reply := fun pre => [.list ⟨0, hierarchicalListing K pre, ""⟩]
    (∀ pre, Delivers 4 none 0 (hierarchicalListing K pre) (deliver pre)) ∧
    (∀ k ∈ K.blobs, k.name.length ≤ 5) ∧ treesApart ("/" ++ "a") "/b" ∧
    (∃ new, azsRenameDirectory [] (fun _ => none) (5 + 1) ("/" ++ "a") "/b"
        ⟨renameScript K deliver (fun _ _ => (0, 0)) (5 + 1) ("/" ++ "a") "/b" ++ [], []⟩ =
        some (0, ⟨[], [] ++ new⟩) ∧
      (new.filterMap RenameCall.renamed?).Perm
        ((K.blobs.filter (spelledUnder ("a" ++ "/"))).map fun k =>
          ("/" ++ k.name, withSlash "/b" ++ relName ("a" ++ "/") k)) ∧
      (∀ p ∈ new.filterMap RenameCall.renamed?, ¬ ("/" ++ "a" ++ "/").data <+: p.2.data) ∧
      new.getLast? = some (.rmdir ("/" ++ "a"))) ∧
    (K.blobs.filter (spelledUnder "a/")).map (·.name) = ["a/d", "a/d/y", "a/x"] := by
  intro K deliver
  have hd : ∀ pre, Delivers 4 none 0 (hierarchicalListing K pre) (deliver pre) :=
    fun pre => Delivers.whole K pre
  have hf : ∀ k ∈ K.blobs, k.name.length ≤ 5 := by decide
  have hapart : treesApart ("/" ++ "a") "/b" := by decide
  exact ⟨hd, hf, hapart, azsRenameDirectory_moves_keys [] (fun _ => none) (fun _ => rfl) K
    hd hf (by decide) (by decide) hapart [] [], by decide⟩

/-! ### `azs_rename` of a virtual directory -/

theorem azsGetattr_virtualDirectory (errorMapping : List (Int × Int)) (K : KeySet) {b : String}
    (hb : b ≠ "") (hnone : ∀ k ∈ K.blobs, k.name ≠ b) (hsome : ∃ k ∈ K.blobs, underDirectory b k = true)
    {rs : List Reply} (hd : Delivers 2 none 0 (hierarchicalListing K b) rs) (now : Int) (stbuf : Stat)
    (script : List Reply) :
    ∃ st, azsGetattr errorMapping ("/" ++ b) none now stbuf (rs ++ script) = some ((0, st), script) ∧
      st.kind = .dir := by
  obtain ⟨res, hlist, hres⟩ := listAllBlobsHierarchical_delivers hd (hierarchicalListing_name_ne hb)
    (hierarchicalListing_chain K b) script
  have hfind : (hierarchicalListing K b).find? (pathEntry b) =
      some { name := b ++ "/", isDirectory := true } := by
    have hk : K.blobs.find? (·.name == b) = none :=
      List.find?_eq_none.mpr fun k hk => by simpa using hnone k hk
    rw [hierarchicalListing_find?_pathEntry, pathEntryOf, hk, if_pos (List.any_eq_true.mpr hsome)]
  have hscan := scanPages_blobItem hb {} res
  simp only [show ({} : GetattrScan).blobItem.name = "" from rfl, if_true, hres, hfind,
    Option.getD_some] at hscan
  have hres0 : res ≠ [] := by
    rintro rfl
    rw [← hres] at hfind
    simp [skipFlatten] at hfind
  have hpath : (⟨("/" ++ b).data.drop 1⟩ : String) = b := rfl
  have hname : (b ++ "/" : String) ≠ "" := append_ne_empty (by decide)
  simp [azsGetattr, utf8ByteSize_slash_append hb, hpath, hlist, hres0, hscan, hname,
    isDirectorySignal]

/-- For every key set and path `/s` with no blob of its own and keys under it, absent from
the local cache, with nothing but dot files in the cache below it, and every `dst` apart
from it: `azs_rename` reads the listing `azs_getattr` asks for, finds a directory and
renames it through `azs_rename_directory` on a server answering from the key set, each
single-file rename succeeding, and returns 0; each key under `s/` whose name below it has
no empty piece is renamed once, to the same name below `dst`, outside the tree of `/s`,
nothing else is, and `azs_rmdir` of `/s` comes last. -/
theorem azsRename_moves_keys (errorMapping : List (Int × Int))
    (localDir : String → Option (List DirEntry))
    (hlocal : ∀ p, ((localDir p).getD []).filter renamedLocally = []) (K : KeySet) {n : Nat}
    {deliver : String → List Reply}
    (hdeliver : ∀ pre, Delivers n none 0 (hierarchicalListing K pre) (deliver pre))
    {fuel : Nat} (hfuel : ∀ k ∈ K.blobs, k.name.length ≤ fuel) {s dst : String} (hs : s ≠ "")
    (hdst : dst ≠ "") (hnone : ∀ k ∈ K.blobs, k.name ≠ s) (hapart : treesApart ("/" ++ s) dst)
    (hsome : ∃ k ∈ K.blobs, underDirectory s k = true) {rs : List Reply}
    (hrs : Delivers 2 none 0 (hierarchicalListing K s) rs) (now : Int) (calls : List RenameCall)
    (rest : List Reply) :
    ∃ new, azsRename errorMapping localDir none now (fuel + 1) ("/" ++ s) dst
        ⟨rs ++ (renameScript K deliver (fun _ _ => (0, 0)) (fuel + 1) ("/" ++ s) dst ++ rest),
          calls⟩ =
        some (0, ⟨rest, calls ++ new⟩) ∧
      (new.filterMap RenameCall.renamed?).Perm
        ((K.blobs.filter (spelledUnder (s ++ "/"))).map fun k =>
          ("/" ++ k.name, withSlash dst ++ relName (s ++ "/") k)) ∧
      (∀ p ∈ new.filterMap RenameCall.renamed?, ¬ ("/" ++ s ++ "/").data <+: p.2.data) ∧
      new.getLast? = some (.rmdir ("/" ++ s)) := by
  obtain ⟨st, hattr, hdir⟩ := azsGetattr_virtualDirectory errorMapping K hs hnone hsome hrs now {}
    (renameScript K deliver (fun _ _ => (0, 0)) (fuel + 1) ("/" ++ s) dst ++ rest)
  obtain ⟨new, hrun, hperm, hlast⟩ := azsRenameDirectory_renamesKeys errorMapping hlocal hdeliver (fuel + 1)
    ("/" ++ s) dst (s ++ "/") calls rest (withSlash_root hs) (by simp) hdst (Nat.succ_pos _)
    (fitsFuel_root hfuel _)
  have hperm' := rootPairs K hs dst ▸ hperm
  refine ⟨new, ?_, hperm', fun p hp => ?_, hlast⟩
  · simp only [azsRename, hattr, hdir, Option.bind_eq_bind, Option.some_bind, ne_eq,
      not_true_eq_false, if_false, if_true]
    rw [hrun]
    rfl
  · obtain ⟨k, -, rfl⟩ := List.mem_map.mp (hperm'.mem_iff.mp hp)
    exact not_under_of_treesApart hs hdst hapart _

/-- `azs_rename` of `/a`, whose keys all lie under `a/`, to `/b`: `azs_getattr` lists `a` and
finds the virtual directory `a/`, and the calls are the renames of `a/d`, `a/d/y`, `a/x`
and the removals of `/a/d`, then `/a`. -/
theorem azsRename_moves_keys_nested :
    let K : KeySet := ⟨[{ name := "a//z" }, { name := "a/d", metadata := [("hdi_isfolder", "true")] },
      { name := "a/d/y" }, { name := "a/x" }], by decide⟩
    let deliver : String → List Reply := fun pre => [.list ⟨0, hierarchicalListing K pre, ""⟩]
    let rs : List Reply := [.list ⟨0, hierarchicalListing K "a", ""⟩]
    (∀ pre, Delivers 4 none 0 (hierarchicalListing K pre) (deliver pre)) ∧
    (∀ k ∈ K.blobs, k.name.length ≤ 5) ∧ (∀ k ∈ K.blobs, k.name ≠ "a") ∧
    treesApart ("/" ++ "a") "/b" ∧ (∃ k ∈ K.blobs, underDirectory "a" k = true) ∧
    Delivers 2 none 0 (hierarchicalListing K "a") rs ∧
    (∃ new, azsRename [] (fun _ => none) none 0 (5 + 1) ("/" ++ "a") "/b"
        ⟨rs ++ (renameScript K deliver (fun _ _ => (0, 0)) (5 + 1) ("/" ++ "a") "/b" ++ []), []⟩ =
        some (0, ⟨[], [] ++ new⟩) ∧
      (new.filterMap RenameCall.renamed?).Perm
        ((K.blobs.filter (spelledUnder ("a" ++ "/"))).map fun k =>
          ("/" ++ k.name, withSlash "/b" ++ relName ("a" ++ "/") k)) ∧
      (∀ p ∈ new.filterMap RenameCall.renamed?, ¬ ("/" ++ "a" ++ "/").data <+: p.2.data) ∧
      new.getLast? = some (.rmdir ("/" ++ "a"))) ∧
    azsRename [] (fun _ => none) none 0 (5 + 1) ("/" ++ "a") "/b"
        ⟨rs ++ (renameScript K deliver (fun _ _ => (0, 0)) (5 + 1) ("/" ++ "a") "/b" ++ []), []⟩ =
      some (0, ⟨[], [.renameSingleFile "/a/d" "/b/d", .renameSingleFile "/a/d/y" "/b/d/y",
        .rmdir "/a/d", .renameSingleFile "/a/x" "/b/x", .rmdir "/a"]⟩) := by
  intro K deliver rs
  have hd : ∀ pre, Delivers 4 none 0 (hierarchicalListing K pre) (deliver pre) :=
    fun pre => Delivers.whole K pre
  have hf : ∀ k ∈ K.blobs, k.name.length ≤ 5 := by decide
  have hnone : ∀ k ∈ K.blobs, k.name ≠ "a" := by decide
  have hsome : ∃ k ∈ K.blobs, underDirectory "a" k = true := by decide
  have hapart : treesApart ("/" ++ "a") "/b" := by decide
  have hrs : Delivers 2 none 0 (hierarchicalListing K "a") rs := .last false (by decide)
  exact ⟨hd, hf, hnone, hapart, hsome, hrs, azsRename_moves_keys [] (fun _ => none) (fun _ => rfl)
    K hd hf (by decide) (by decide) hnone hapart hsome hrs 0 [] [], by decide⟩

end BlobFuse
