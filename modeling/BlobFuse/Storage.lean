import Mathlib.Data.List.Lex
import Mathlib.Data.Char

/-! The remote storage interface of `utilities.cpp`: the items and properties the blob
client wrapper returns, the `errno` convention of its calls, and `map_errno`. A remote call
is answered by the next reply of a script, so a script is any remote behaviour, failures
included. Names are compared as `std::string::compare` does, character by character. -/
namespace BlobFuse

/-- The Linux `errno` values the code returns by name. -/
def ENOENT : Int := 2
def EIO : Int := 5
def EWOULDBLOCK : Int := 11

/-- `map_errno`: the storage error translated through `error_mapping` (declared in
`blobfuse.h`, so a parameter here), `EIO` when the table has no entry. -/
def mapErrno (errorMapping : List (Int × Int)) (error : Int) : Int :=
  (errorMapping.lookup error).getD EIO

abbrev Metadata := List (String × String)

/-- `is_directory_blob`: a zero-size blob whose metadata has `hdi_isfolder` = `true`. -/
def isDirectoryBlob (size : Nat) (metadata : Metadata) : Bool :=
  size == 0 && metadata.any fun kv => kv.1 == "hdi_isfolder" && kv.2 == "true"

/-- `list_blobs_hierarchical_item`, the fields the modelled code reads. -/
structure ListItem where
  name : String := ""
  isDirectory : Bool := false
  metadata : Metadata := []
  deriving DecidableEq, Repr, Inhabited

/-- `blob_property`, the fields the modelled code reads. -/
structure BlobProperty where
  size : Nat := 0
  metadata : Metadata := []
  lastModified : Int := 0
  valid : Bool := false
  deriving DecidableEq, Repr, Inhabited

/-- A call of `list_blobs_hierarchical`: `errno` after the call (0 on success), the page
and the next marker. -/
structure ListResponse where
  errno : Int
  blobs : List ListItem
  nextMarker : String
  deriving DecidableEq, Repr

/-- A call of `get_blob_property`: `errno` after the call and the property object. -/
structure PropertyResponse where
  errno : Int
  property : BlobProperty
  deriving DecidableEq, Repr

/-- The answer to one remote call, or the outcome of the external single-file rename
primitive `azs_rename_single_file` (its return value and the `errno` it leaves). -/
inductive Reply where
  | list (r : ListResponse)
  | property (r : PropertyResponse)
  | renamed (ret errno : Int)
  deriving DecidableEq, Repr

/-- `get_blob_property` answered by the head of the script. -/
def getBlobProperty : List Reply → Option (PropertyResponse × List Reply)
  | .property r :: script => some (r, script)
  | _ => none

@[simp] theorem getBlobProperty_cons (r : PropertyResponse) (script : List Reply) :
    getBlobProperty (.property r :: script) = some (r, script) := rfl

/-- `a.compare(b) < 0` for `std::string`: lexicographic on characters. -/
def nameLt : List Char → List Char → Bool
  | [], [] => false
  | [], _ :: _ => true
  | _ :: _, [] => false
  | a :: as, b :: bs => if a = b then nameLt as bs else decide (a < b)

theorem nameLt_iff_lex : ∀ {l m : List Char}, nameLt l m = true ↔ List.Lex (· < ·) l m
  | [], [] => by simp [nameLt]
  | [], _ :: _ => iff_of_true rfl .nil
  | _ :: _, [] => by simp [nameLt]
  | a :: l, b :: m => by
    by_cases hab : a = b
    · subst hab
      simp only [nameLt, if_true, List.Lex.cons_iff, nameLt_iff_lex]
    · simp only [nameLt, hab, if_false, decide_eq_true_eq]
      refine ⟨.rel, fun h => ?_⟩
      cases h with
      | cons => exact absurd rfl hab
      | rel h => exact h

theorem nameLt_irrefl (l : List Char) : nameLt l l = false :=
  Bool.eq_false_iff.mpr fun h => irrefl l (nameLt_iff_lex.mp h)

theorem nameLt_asymm {l m : List Char} (h : nameLt l m = true) : nameLt m l = false :=
  Bool.eq_false_iff.mpr fun h' => asymm (nameLt_iff_lex.mp h) (nameLt_iff_lex.mp h')

theorem nameLt_append_cons : ∀ (l : List Char) (c : Char) (t : List Char),
    nameLt l (l ++ c :: t) = true
  | [], _, _ => rfl
  | _ :: l, c, t => by simp [nameLt, nameLt_append_cons l c t]

theorem nameLt_trans {l m n : List Char} (h₁ : nameLt l m = true) (h₂ : nameLt m n = true) :
    nameLt l n = true :=
  nameLt_iff_lex.mpr (trans_of _ (nameLt_iff_lex.mp h₁) (nameLt_iff_lex.mp h₂))

theorem nameLt_append_left : ∀ (p l m : List Char), nameLt (p ++ l) (p ++ m) = nameLt l m
  | [], _, _ => rfl
  | _ :: p, l, m => by simp [nameLt, nameLt_append_left p l m]

end BlobFuse
