import BlobFuse.Getattr

/-! `azs_rename_directory` and `azs_rename`. A directory is renamed in three passes: its
own marker blob, then every entry of its local cache directory, then every listed remote
entry whose name the local pass did not handle; subdirectories recurse. The single-file
rename and `azs_rmdir` are defined outside this file, so a call of them is recorded, and
the outcome of a single-file rename is read from the script like a remote reply. -/
namespace BlobFuse

/-- A `readdir` entry of a local cache directory: its name and whether `d_type` is
`DT_DIR`. -/
structure DirEntry where
  name : String
  isDir : Bool := false
  deriving DecidableEq, Repr

/-- The calls to functions defined outside this file. -/
inductive RenameCall where
  | renameSingleFile (src dst : String)
  | rmdir (path : String)
  deriving DecidableEq, Repr

/-- The replies still to come and the outside calls made so far, oldest first. -/
structure RenameWorld where
  script : List Reply
  calls : List RenameCall := []
  deriving DecidableEq, Repr

/-- `azs_rename_single_file`: recorded; its return value and the `errno` it leaves come
from the script. -/
def azsRenameSingleFile (src dst : String) (w : RenameWorld) :
    Option ((Int × Int) × RenameWorld) :=
  match w.script with
  | .renamed ret errno :: script =>
    some ((ret, errno), ⟨script, w.calls ++ [.renameSingleFile src dst]⟩)
  | _ => none

/-- `azs_rmdir`: recorded; its result is not read. -/
def azsRmdir (path : String) (w : RenameWorld) : RenameWorld :=
  { w with calls := w.calls ++ [.rmdir path] }

/-- `dir_ent->d_name[0] != '.'`: the local entries the local pass renames. -/
def renamedLocally (e : DirEntry) : Bool :=
  e.name.data.head? != some '.'

/-- `prev_token_str`: a listed name relative to `srcPathStr`, a directory's trailing `/`
cut off. Lengths count characters, which cut where the code's byte offsets do on names
that begin with the listing prefix. -/
def prevToken (srcPath name : String) : String :=
  if name.data.getLast? = some '/' then
    ⟨(name.data.drop (srcPath.length - 1)).take (name.length - srcPath.length)⟩
  else ⟨name.data.drop (srcPath.length - 1)⟩

/-- `srcPathStr` and `dstPathStr` after the code appends `/` to a path longer than one
byte. -/
def withSlash (path : String) : String :=
  if 1 < path.utf8ByteSize then path.push '/' else path

/-- The local pass on one `readdir` entry: a directory goes through `rec`, the recursive
`azs_rename_directory`, any other entry through the single-file rename. -/
def renameLocalEntry (rec : String → String → RenameWorld → Option (Int × RenameWorld))
    (srcPath dstPath : String) (w : RenameWorld) (e : DirEntry) : Option RenameWorld :=
  if e.isDir then (rec (srcPath ++ e.name) (dstPath ++ e.name) w).map (·.2)
  else (azsRenameSingleFile (srcPath ++ e.name) (dstPath ++ e.name) w).map (·.2)

/-- The remote pass's test on a listed entry: a non-empty name whose `prev_token_str` is
non-empty and not among the names the local pass handled. -/
def remoteOnly (srcPath : String) (locals : List DirEntry) (item : ListItem) : Bool :=
  decide (item.name ≠ "" ∧ prevToken srcPath item.name ≠ "" ∧
    prevToken srcPath item.name ∉ locals.map (·.name))

/-- The remote pass on one listed entry. -/
def renameRemoteEntry (rec : String → String → RenameWorld → Option (Int × RenameWorld))
    (srcPath dstPath : String) (locals : List DirEntry) (w : RenameWorld) (item : ListItem) :
    Option RenameWorld :=
  if remoteOnly srcPath locals item then
    let token := prevToken srcPath item.name
    if item.isDirectory then (rec (srcPath ++ token) (dstPath ++ token) w).map (·.2)
    else (azsRenameSingleFile (srcPath ++ token) (dstPath ++ token) w).map (·.2)
  else some w

/-- `azs_rename_directory`, `fuel` bounding the depth of its recursion. `localDir p` is what
`readdir` gives on the cache directory of `p` (`none` when `opendir` fails), read as it was
when the call began: the renames move only entries already read. -/
def azsRenameDirectory (errorMapping : List (Int × Int))
    (localDir : String → Option (List DirEntry)) :
    Nat → String → String → RenameWorld → Option (Int × RenameWorld)
  | 0, _, _, _ => none
  | fuel + 1, src, dst, w => do
    let (props, script) ← getBlobProperty w.script
    let w := { w with script }
    let (errno, w) ←
      if props.errno = 0 ∧ props.property.valid ∧
          isDirectoryBlob props.property.size props.property.metadata then
        (azsRenameSingleFile src dst w).map fun ((_, errno), w) => (errno, w)
      else some (props.errno, w)
    if errno ≠ 0 ∧ errno ≠ 404 ∧ errno ≠ ENOENT then
      return (-mapErrno errorMapping errno, w)
    let srcPath := withSlash src
    let dstPath := withSlash dst
    let locals := ((localDir srcPath).getD []).filter renamedLocally
    let w ← locals.foldlM
      (renameLocalEntry (azsRenameDirectory errorMapping localDir fuel) srcPath dstPath) w
    let (results, errno, script) ← listAllBlobsHierarchical w.script
    let w := { w with script }
    if errno ≠ 0 then return (-mapErrno errorMapping errno, w)
    let w ← (skipFlatten results).foldlM
      (renameRemoteEntry (azsRenameDirectory errorMapping localDir fuel) srcPath dstPath locals) w
    return (0, azsRmdir src w)

/-- `azs_rename`: the source's attributes, then a directory or a single-file rename, whose
own result is not read. `cached` is the local cache's answer for `src`, as `azs_getattr`
takes it. -/
def azsRename (errorMapping : List (Int × Int)) (localDir : String → Option (List DirEntry))
    (cached : Option (Except Int Stat)) (now : Int) (fuel : Nat) (src dst : String)
    (w : RenameWorld) : Option (Int × RenameWorld) := do
  let ((getattrret, statbuf), script) ← azsGetattr errorMapping src cached now {} w.script
  let w := { w with script }
  if getattrret ≠ 0 then return (getattrret, w)
  if statbuf.kind = .dir then
    let (_, w) ← azsRenameDirectory errorMapping localDir fuel src dst w
    return (0, w)
  else
    let (_, w) ← azsRenameSingleFile src dst w
    return (0, w)

/-! ### Two failures of the code -/

/-- A file `.hidden` present only in the local cache of `/a` is not renamed: the local pass
skips every name starting with `.`, and the remote listing does not have it. -/
theorem azsRenameDirectory_skips_local_dot_files (errorMapping : List (Int × Int)) :
    let localDir : String → Option (List DirEntry) := fun p =>
      if p = "/a/" then some [⟨".", true⟩, ⟨"..", true⟩, ⟨".hidden", false⟩] else none
    let remote : KeySet := ⟨[], List.Pairwise.nil⟩
    Delivers 1 none 0 (hierarchicalListing remote "a/") [.list ⟨0, [], ""⟩] ∧
    azsRenameDirectory errorMapping localDir 1 "/a" "/b"
        ⟨[.property ⟨404, {}⟩, .list ⟨0, [], ""⟩], []⟩ =
      some (0, ⟨[], [.rmdir "/a"]⟩) :=
  ⟨@Delivers.last 1 none 0 [] false (by decide), rfl⟩

/-- `azs_rename` of the directory `/a` returns 0 although the directory rename failed on
its first call, the property of `a` answering 500, and renamed nothing. -/
theorem azsRename_ignores_directory_failure (errorMapping : List (Int × Int))
    (localDir : String → Option (List DirEntry)) (now : Int) :
    azsRenameDirectory errorMapping localDir 1 "/a" "/b" ⟨[.property ⟨500, {}⟩], []⟩ =
      some (-mapErrno errorMapping 500, ⟨[], []⟩) ∧
    azsRename errorMapping localDir none now 1 "/a" "/b"
        ⟨[.list ⟨0, [{ name := "a/", isDirectory := true }], ""⟩, .property ⟨500, {}⟩], []⟩ =
      some (0, ⟨[], []⟩) :=
  ⟨rfl, rfl⟩

end BlobFuse
