import BlobFuse.Storage
import Mathlib.Data.List.Destutter

/-! The container as a sorted set of keys, and the hierarchical listing the service
answers for a prefix with delimiter `/`: a key directly under the prefix is listed as
itself, a deeper key is rolled up into its virtual directory. -/
namespace BlobFuse

/-- A blob of the container: its key and the properties the code reads. -/
structure Blob where
  name : String
  size : Nat := 0
  metadata : Metadata := []
  lastModified : Int := 0
  deriving DecidableEq, Repr

/-- The container's blobs in key order, as the service keeps them. -/
structure KeySet where
  blobs : List Blob
  sorted : blobs.Pairwise fun x y => nameLt x.name.data y.name.data = true

theorem isPrefixOf?_eq_some_iff :
    ∀ {l m t : List Char}, l.isPrefixOf? m = some t ↔ m = l ++ t
  | [], m, t => by simp [List.isPrefixOf?, eq_comm]
  | _ :: _, [], _ => by simp [List.isPrefixOf?]
  | a :: l, b :: m, t => by
    by_cases hab : a = b
    · subst hab
      simp [List.isPrefixOf?, isPrefixOf?_eq_some_iff]
    · simp [List.isPrefixOf?, hab, Ne.symm hab]

/-- The entry a key contributes to a listing under `pre`. -/
def listEntry (pre : String) (blob : Blob) : Option ListItem :=
  match pre.data.isPrefixOf? blob.name.data with
  | none => none
  | some rest =>
    if '/' ∈ rest then
      some { name := ⟨pre.data ++ rest.takeWhile (· != '/') ++ ['/']⟩, isDirectory := true }
    else some { name := blob.name, metadata := blob.metadata }

/-- `list_blobs_hierarchical` over the whole container under `pre`: the entries in key
order, each virtual directory once. -/
def hierarchicalListing (K : KeySet) (pre : String) : List ListItem :=
  (K.blobs.filterMap (listEntry pre)).destutter fun x y => x.name ≠ y.name

/-- An entry that stands for the path `b` itself: the blob `b` or the virtual directory
`b/`. -/
def pathEntry (b : String) (e : ListItem) : Bool := e.name == b || e.name == b ++ "/"

/-- Key `k` lies under the virtual directory `b/`. -/
def underDirectory (b : String) (k : Blob) : Bool := (b ++ "/").data.isPrefixOf k.name.data

/-- What a listing under `b` shows for `b` itself: the blob stored under `b`, else the
virtual directory `b/` when some key lies under it. -/
def pathEntryOf (blobs : List Blob) (b : String) : Option ListItem :=
  match blobs.find? (·.name == b) with
  | some k => some { name := b, metadata := k.metadata }
  | none =>
    if blobs.any (underDirectory b) then some { name := b ++ "/", isDirectory := true }
    else none

theorem listEntry_self (b : String) (k : Blob) (hk : k.name = b) :
    listEntry b k = some { name := b, metadata := k.metadata } := by
  subst hk
  have : k.name.data.isPrefixOf? k.name.data = some [] :=
    isPrefixOf?_eq_some_iff.mpr (List.append_nil _).symm
  simp [listEntry, this]

theorem listEntry_underDirectory {b : String} {k : Blob} (hk : underDirectory b k = true) :
    listEntry b k = some { name := b ++ "/", isDirectory := true } := by
  obtain ⟨t, ht⟩ := (List.isPrefixOf_iff_prefix.mp hk)
  have hpre : b.data.isPrefixOf? k.name.data = some ('/' :: t) :=
    isPrefixOf?_eq_some_iff.mpr (by simpa using ht.symm)
  simp [listEntry, hpre, String.ext_iff]

theorem listEntry_pathEntry {b : String} {k : Blob} (hk : k.name ≠ b)
    (hd : underDirectory b k = false) : (listEntry b k).any (pathEntry b) = false := by
  unfold listEntry
  split
  · rfl
  · rename_i rest hrest
    have hname := isPrefixOf?_eq_some_iff.mp hrest
    split
    · rename_i hslash
      simp only [Option.any_some, pathEntry, Bool.or_eq_false_iff, beq_eq_false_iff_ne, ne_eq,
        String.ext_iff, String.data_append, List.append_assoc]
      refine ⟨fun h => by simpa using congrArg List.length h, fun h => ?_⟩
      have htw : rest.takeWhile (· != '/') = [] := by simpa using h
      cases rest with
      | nil => simp at hslash
      | cons c t =>
        have hc : c = '/' := by simpa [List.takeWhile_cons] using htw
        subst hc
        have : underDirectory b k = true :=
          List.isPrefixOf_iff_prefix.mpr ⟨t, by simp [hname]⟩
        simp [this] at hd
    · rename_i hslash
      simp only [Option.any_some, pathEntry, Bool.or_eq_false_iff, beq_eq_false_iff_ne, ne_eq]
      refine ⟨hk, fun h => hslash ?_⟩
      rw [String.ext_iff, hname, String.data_append, List.append_right_inj] at h
      simp [h]

theorem find?_destutter' {α : Type} {R : α → α → Prop} [DecidableRel R] {P : α → Bool}
    (hR : ∀ y x, P y = false → P x = true → R y x) :
    ∀ (a : α) (l : List α), (l.destutter' R a).find? P = (a :: l).find? P
  | a, [] => by simp [List.destutter'_nil]
  | a, h :: t => by
    cases ha : P a
    · by_cases hah : R a h
      · simp [List.destutter'_cons_pos _ hah, ha, find?_destutter' hR h t]
      · have hh : P h = false := by
          cases hh : P h
          · rfl
          · exact absurd (hR a h ha hh) hah
        simp [List.destutter'_cons_neg _ hah, ha, hh, find?_destutter' hR a t]
    · by_cases hah : R a h
      · simp [List.destutter'_cons_pos _ hah, ha]
      · simp [List.destutter'_cons_neg _ hah, find?_destutter' hR a t, ha]

theorem find?_destutter {α : Type} {R : α → α → Prop} [DecidableRel R] {P : α → Bool}
    (hR : ∀ y x, P y = false → P x = true → R y x) (l : List α) :
    (l.destutter R).find? P = l.find? P := by
  cases l with
  | nil => rfl
  | cons a t => rw [List.destutter_cons', find?_destutter' hR]

theorem underDirectory_nameLt {b : String} {k : Blob} (hk : underDirectory b k = true) :
    nameLt b.data k.name.data = true := by
  obtain ⟨t, ht⟩ := List.isPrefixOf_iff_prefix.mp hk
  rw [← ht, String.data_append, List.append_assoc]
  exact nameLt_append_cons _ _ _

theorem find?_pathEntry_filterMap (b : String) : ∀ {blobs : List Blob},
    blobs.Pairwise (fun x y => nameLt x.name.data y.name.data = true) →
    (blobs.filterMap (listEntry b)).find? (pathEntry b) = pathEntryOf blobs b
  | [], _ => rfl
  | k :: ks, hs => by
    obtain ⟨hk, hks⟩ := List.pairwise_cons.mp hs
    by_cases hb : k.name = b
    · simp [List.filterMap_cons, listEntry_self b k hb, pathEntry, pathEntryOf, hb]
    · cases hd : underDirectory b k
      · have hnone := listEntry_pathEntry hb hd
        have ih := find?_pathEntry_filterMap b hks
        cases he : listEntry b k with
        | none => simpa [List.filterMap_cons, he, pathEntryOf, hb, hd] using ih
        | some e =>
          have hpe : pathEntry b e = false := by simpa [he] using hnone
          simpa [List.filterMap_cons, he, hpe, pathEntryOf, hb, hd] using ih
      · have hlt := underDirectory_nameLt hd
        have hnot : ∀ k' ∈ ks, k'.name ≠ b := fun k' hk' hname => by
          have := nameLt_asymm (hk k' hk')
          rw [hname, hlt] at this
          exact Bool.noConfusion this
        have hfind : ks.find? (·.name == b) = none :=
          List.find?_eq_none.mpr fun x hx => by simpa using hnot x hx
        simp [List.filterMap_cons, listEntry_underDirectory hd, pathEntry, pathEntryOf, hb, hd,
          hfind]

theorem hierarchicalListing_find?_pathEntry (K : KeySet) (b : String) :
    (hierarchicalListing K b).find? (pathEntry b) = pathEntryOf K.blobs b := by
  rw [hierarchicalListing, find?_destutter, find?_pathEntry_filterMap b K.sorted]
  intro y x hy hx hxy
  simp only [pathEntry, hxy] at hy
  exact Bool.noConfusion (hy.symm.trans hx)

theorem listEntry_name_prefix {pre : String} {k : Blob} {e : ListItem}
    (he : listEntry pre k = some e) : ∃ t, e.name.data = pre.data ++ t := by
  unfold listEntry at he
  split at he
  · cases he
  · rename_i rest hrest
    split at he <;> cases he
    · exact ⟨_, List.append_assoc _ _ _⟩
    · exact ⟨rest, isPrefixOf?_eq_some_iff.mp hrest⟩

theorem hierarchicalListing_name_ne {K : KeySet} {pre : String} (hpre : pre ≠ "") :
    ∀ e ∈ hierarchicalListing K pre, e.name ≠ "" := by
  intro e he hempty
  obtain ⟨k, -, hk⟩ := List.mem_filterMap.mp ((List.destutter_sublist _ _).subset he)
  obtain ⟨t, ht⟩ := listEntry_name_prefix hk
  rw [hempty] at ht
  exact hpre (String.ext (List.append_eq_nil.mp ht.symm).1)

theorem hierarchicalListing_chain (K : KeySet) (pre : String) :
    (hierarchicalListing K pre).Chain' fun x y => x.name ≠ y.name :=
  List.destutter_is_chain' _ _

/-! ### The order of a listing -/

/-- A name cut just after its first `/`: how a key deeper than the prefix is rolled up. -/
def upToSlash : List Char → List Char
  | [] => []
  | c :: cs => if c = '/' then ['/'] else c :: upToSlash cs

theorem upToSlash_eq (r : List Char) :
    (if '/' ∈ r then r.takeWhile (· != '/') ++ ['/'] else r) = upToSlash r := by
  induction r with
  | nil => simp [upToSlash]
  | cons c cs ih =>
    by_cases hc : c = '/'
    · subst hc; simp [upToSlash]
    · rw [upToSlash, if_neg hc, ← ih]
      by_cases hs : '/' ∈ cs <;> simp [hs, hc, Ne.symm hc, List.takeWhile_cons]

theorem upToSlash_cons (c : Char) (cs : List Char) : ∃ t, upToSlash (c :: cs) = c :: t := by
  by_cases hc : c = '/'
  · subst hc; exact ⟨[], rfl⟩
  · exact ⟨_, if_neg hc⟩

theorem upToSlash_mono : ∀ {r₁ r₂ : List Char}, nameLt r₁ r₂ = true →
    upToSlash r₁ = upToSlash r₂ ∨ nameLt (upToSlash r₁) (upToSlash r₂) = true
  | [], [], h => by simp [nameLt] at h
  | [], c :: cs, _ => .inr (by obtain ⟨t, ht⟩ := upToSlash_cons c cs; rw [ht]; rfl)
  | _ :: _, [], h => by simp [nameLt] at h
  | a :: r₁, b :: r₂, h => by
    by_cases hab : a = b
    · subst hab
      simp only [nameLt, if_true] at h
      by_cases ha : a = '/'
      · simp [upToSlash, ha]
      · simpa [upToSlash, ha, nameLt] using upToSlash_mono h
    · obtain ⟨t₁, h₁⟩ := upToSlash_cons a r₁
      obtain ⟨t₂, h₂⟩ := upToSlash_cons b r₂
      simp only [nameLt, hab, if_false] at h
      exact .inr (by simp [h₁, h₂, nameLt, hab, h])

theorem listEntry_name {pre : String} {k : Blob} {e : ListItem} (he : listEntry pre k = some e) :
    ∃ rest, k.name.data = pre.data ++ rest ∧ e.name.data = pre.data ++ upToSlash rest := by
  unfold listEntry at he
  split at he
  · cases he
  · rename_i rest hrest
    have hk := isPrefixOf?_eq_some_iff.mp hrest
    refine ⟨rest, hk, ?_⟩
    rw [← upToSlash_eq]
    split at he <;> cases he <;> simp [*]

/-- Names never decrease along a listing: keys come in order, and cutting them at the first
`/` after the prefix keeps it. -/
theorem hierarchicalListing_sorted (K : KeySet) (pre : String) :
    (hierarchicalListing K pre).Pairwise fun x y =>
      x.name = y.name ∨ nameLt x.name.data y.name.data = true := by
  refine (K.sorted.filterMap _ fun k₁ k₂ hk e₁ he₁ e₂ he₂ => ?_).sublist
    (List.destutter_sublist _ _)
  obtain ⟨r₁, hk₁, hn₁⟩ := listEntry_name he₁
  obtain ⟨r₂, hk₂, hn₂⟩ := listEntry_name he₂
  rw [hk₁, hk₂, nameLt_append_left] at hk
  rcases upToSlash_mono hk with h | h
  · exact .inl (String.ext (by rw [hn₁, hn₂, h]))
  · exact .inr (by rw [hn₁, hn₂, nameLt_append_left]; exact h)

end BlobFuse
