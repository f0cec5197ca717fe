import BlobFuse.Getattr

/-! `ensure_files_directory_exists_in_cache`: for every `/` of the path that ends a
non-empty component, `stat` of the path up to it and, when that fails, `mkdir`, with
`EEXIST` from `mkdir` taken as another thread having won the race. The local cache is a
tree of typed nodes, and other threads may create directories before any call. Besides what
the tree holds, `mkdir` fails on a name or a path too long, and where the file system refuses
it for want of space, of permission or of a writable mount. -/
namespace BlobFuse

/-- The Linux `errno` values of the local file system calls. -/
def EACCES : Int := 13
def EEXIST : Int := 17
def ENOTDIR : Int := 20
def ENOSPC : Int := 28
def EROFS : Int := 30
def ENAMETOOLONG : Int := 36

/-- Linux's `NAME_MAX`, the longest name in bytes, and `PATH_MAX`, the longest path in bytes
with its `NUL`. -/
def NAME_MAX : Nat := 255
def PATH_MAX : Nat := 4096

/-- A path a call rejects with `ENAMETOOLONG` before looking at the tree. -/
def pathTooLong (path : List Char) : Bool := decide (PATH_MAX ≤ (String.mk path).utf8ByteSize)

/-- Why the file system refuses a directory whose name is free in a directory: no space
(`ENOSPC`), no write permission on the parent (`EACCES`), a read-only mount (`EROFS`). -/
inductive MkdirRefusal where
  | noSpace
  | access
  | readOnly
  deriving DecidableEq, Repr

def MkdirRefusal.errno : MkdirRefusal → Int
  | .noSpace => ENOSPC
  | .access => EACCES
  | .readOnly => EROFS

theorem MkdirRefusal.errno_ne_eexist (r : MkdirRefusal) : r.errno ≠ EEXIST := by
  cases r <;> decide

/-- The names a path resolves through: its non-empty pieces between slashes. Names `.` and
`..` and symbolic links are not modelled: every piece is a plain name. -/
def pathComponents (path : List Char) : List String :=
  ((path.splitOnP (· == '/')).filter (!·.isEmpty)).map String.mk

/-- `List.splitOnP_first`, with separators allowed before `sep`. -/
theorem splitOnP_append_cons {α : Type} (p : α → Bool) {sep : α} (hsep : p sep = true)
    (x y : List α) : (x ++ sep :: y).splitOnP p = x.splitOnP p ++ y.splitOnP p := by
  -- cut `x` before its first separator
  have hu : ∀ a ∈ x.takeWhile (!p ·), ¬ p a := fun a ha => by
    simpa using List.mem_takeWhile_imp ha
  have hsuf : x.dropWhile (!p ·) <:+ x := List.dropWhile_suffix _
  rw [← List.takeWhile_append_dropWhile (!p ·) x]
  cases hd : x.dropWhile (!p ·) with
  | nil =>
    rw [List.append_nil, List.splitOnP_first p _ hu sep hsep, List.splitOnP_eq_single p _ hu]
    rfl
  | cons s v =>
    have hs : p s = true := by simpa [hd] using List.head_dropWhile_not (!p ·) x (by simp [hd])
    have : v.length < x.length := by have := (hd ▸ hsuf).length_le; simp at this; omega
    rw [List.append_assoc, List.cons_append, List.splitOnP_first p _ hu s hs,
      List.splitOnP_first p _ hu s hs, splitOnP_append_cons p hsep v y]
    rfl
termination_by x.length

@[simp] theorem pathComponents_nil : pathComponents [] = [] := rfl

theorem pathComponents_append_slash (x y : List Char) :
    pathComponents (x ++ '/' :: y) = pathComponents x ++ pathComponents y := by
  rw [pathComponents, splitOnP_append_cons _ rfl, List.filter_append, List.map_append]
  rfl

theorem pathComponents_of_slash_free {w : List Char} (hw : w ≠ []) (hslash : '/' ∉ w) :
    pathComponents w = [⟨w⟩] := by
  rw [pathComponents, List.splitOnP_eq_single _ _ fun c hc h => hslash (by simp at h; exact h ▸ hc)]
  simp [List.isEmpty_iff, hw]

theorem pathComponents_dropLast {pre comp : List Char} (hpre : pre = [] ∨ ∃ pre', pre = pre' ++ ['/'])
    (hw : comp ≠ []) (hslash : '/' ∉ comp) :
    (pathComponents (pre ++ comp)).dropLast = pathComponents pre := by
  rcases hpre with rfl | ⟨pre', rfl⟩
  · simp [pathComponents_of_slash_free hw hslash]
  · rw [List.append_assoc, List.singleton_append, pathComponents_append_slash,
      pathComponents_of_slash_free hw hslash, List.dropLast_concat, pathComponents_append_slash]
    simp

/-- The local cache directory: the type of the node at each path, and the paths where the
file system refuses a `mkdir`. The root is a directory, and every other node hangs in a
directory. -/
structure CacheTree where
  kind : List String → Option FileKind
  refuses : List String → Option MkdirRefusal
  kind_root : kind [] = some .dir
  kind_parent : ∀ p k, kind p = some k → p ≠ [] → kind p.dropLast = some .dir

namespace CacheTree

/-- A tree holding the root only. -/
def root : CacheTree where
  kind p := if p = [] then some .dir else none
  refuses _ := none
  kind_root := rfl
  kind_parent p k h hp := by simp [hp] at h

/-- The tree with a node of type `k` at the missing path `p`, whose parent is a
directory. -/
def insert (t : CacheTree) (p : List String) (k : FileKind) (hnone : t.kind p = none)
    (hparent : t.kind p.dropLast = some .dir) : CacheTree where
  kind q := if q = p then some k else t.kind q
  refuses := t.refuses
  kind_root := by
    have hp : [] ≠ p := fun h => by rw [← h, t.kind_root] at hnone; cases hnone
    simp [hp, t.kind_root]
  kind_parent q k' hq hne := by
    have hdrop : ∀ l : List String, l ≠ [] → l.dropLast ≠ l := fun l hl h =>
      hl (List.length_eq_zero.mp (by have := congrArg List.length h; simp at this; omega))
    by_cases hqp : q = p
    · subst hqp
      simp [hdrop q hne, hparent]
    · simp only [hqp, if_false] at hq
      have hd := t.kind_parent q k' hq hne
      have hdp : q.dropLast ≠ p := fun h => by rw [h, hnone] at hd; cases hd
      simp [hdp, hd]

@[simp] theorem insert_kind (t : CacheTree) (p : List String) (k : FileKind)
    (hnone : t.kind p = none) (hparent : t.kind p.dropLast = some .dir) (q : List String) :
    (t.insert p k hnone hparent).kind q = if q = p then some k else t.kind q := rfl

/-- `errno` of a lookup of a path with no node: `ENOTDIR` when the walk from the root meets
a node that is not a directory, else `ENOENT`. -/
def missErrno (t : CacheTree) (p : List String) : Int :=
  if (List.range p.length).any fun i => (t.kind (p.take i)).any (· != .dir) then ENOTDIR
  else ENOENT

theorem missErrno_ne_eexist (t : CacheTree) (p : List String) : t.missErrno p ≠ EEXIST := by
  unfold missErrno
  split <;> decide

/-- `stat`: the type of the node, or the `errno` it fails with. -/
def stat (t : CacheTree) (p : List String) : Except Int FileKind :=
  match t.kind p with
  | some k => .ok k
  | none => .error (t.missErrno p)

/-- A name longer than `NAME_MAX` bytes. -/
def nameTooLong (p : List String) : Bool := p.any fun c => NAME_MAX < c.utf8ByteSize

/-- `mkdir`: the tree with a new directory, or the `errno` it fails with: a name too long,
a node already there, a parent missing or not a directory, or a refusal. -/
def mkdir (t : CacheTree) (p : List String) : Except Int CacheTree :=
  if nameTooLong p then .error ENAMETOOLONG
  else if hnone : t.kind p = none then
    if hparent : t.kind p.dropLast = some .dir then
      match t.refuses p with
      | some r => .error r.errno
      | none => .ok (t.insert p .dir hnone hparent)
    else .error (t.missErrno p)
  else .error EEXIST

/-- `stat` and `mkdir` of a C path: one of `PATH_MAX` bytes or more fails first. -/
def statPath (t : CacheTree) (path : List Char) : Except Int FileKind :=
  if pathTooLong path then .error ENAMETOOLONG else t.stat (pathComponents path)

def mkdirPath (t : CacheTree) (path : List Char) : Except Int CacheTree :=
  if pathTooLong path then .error ENAMETOOLONG else t.mkdir (pathComponents path)

/-- A `mkdir` of `path` meets none of the file system's own failures: the path and its
names fit and nothing refuses it. -/
def admits (t : CacheTree) (path : List Char) : Bool :=
  !pathTooLong path && !nameTooLong (pathComponents path) && (t.refuses (pathComponents path)).isNone

/-- Other threads' `mkdir`s, in order; one that fails changes nothing. -/
def mkdirs (t : CacheTree) : List (List String) → CacheTree
  | [] => t
  | q :: qs =>
    match t.mkdir q with
    | .ok t' => t'.mkdirs qs
    | .error _ => t.mkdirs qs

/-- `t'` is `t` with directories added, each where `t` has nothing and at a path of
`qs`, and the same refusals. -/
structure GrowsBy (t t' : CacheTree) (qs : List (List String)) : Prop where
  refuses : t'.refuses = t.refuses
  kind : ∀ q, t'.kind q = t.kind q ∨ (t.kind q = none ∧ t'.kind q = some .dir ∧ q ∈ qs)

theorem GrowsBy.refl (t : CacheTree) (qs : List (List String)) : t.GrowsBy t qs :=
  ⟨rfl, fun _ => .inl rfl⟩

theorem GrowsBy.trans {t₁ t₂ t₃ : CacheTree} {qs qs' : List (List String)}
    (h₁ : t₁.GrowsBy t₂ qs) (h₂ : t₂.GrowsBy t₃ qs') : t₁.GrowsBy t₃ (qs ++ qs') := by
  refine ⟨h₂.refuses.trans h₁.refuses, fun q => ?_⟩
  rcases h₁.kind q with h | ⟨hn, hd, hq⟩ <;> rcases h₂.kind q with h' | ⟨hn', hd', hq'⟩
  · exact .inl (h'.trans h)
  · exact .inr ⟨h ▸ hn', hd', List.mem_append_right _ hq'⟩
  · exact .inr ⟨hn, h'.trans hd, List.mem_append_left _ hq⟩
  · rw [hd] at hn'; cases hn'

theorem GrowsBy.mono {t t' : CacheTree} {qs qs' : List (List String)} (h : t.GrowsBy t' qs)
    (hsub : qs ⊆ qs') : t.GrowsBy t' qs' :=
  ⟨h.refuses, fun q => (h.kind q).imp_right fun ⟨hn, hd, hq⟩ => ⟨hn, hd, hsub hq⟩⟩

theorem GrowsBy.admits {t t' : CacheTree} {qs : List (List String)} (h : t.GrowsBy t' qs)
    (path : List Char) : t'.admits path = t.admits path := by
  unfold CacheTree.admits; rw [h.refuses]

theorem GrowsBy.kind_of_some {t t' : CacheTree} {qs : List (List String)}
    (h : t.GrowsBy t' qs) {q : List String} {k : FileKind} (hk : t.kind q = some k) :
    t'.kind q = some k := by
  rcases h.kind q with h | ⟨hn, -⟩
  · exact h.trans hk
  · rw [hk] at hn; cases hn

theorem GrowsBy.kind_ne_none {t t' : CacheTree} {qs : List (List String)}
    (h : t.GrowsBy t' qs) {q : List String} (hq : t.kind q ≠ none) : t'.kind q ≠ none := by
  obtain ⟨k, hk⟩ := Option.ne_none_iff_exists'.mp hq
  simp [h.kind_of_some hk]

theorem GrowsBy.dir_of_dir {t t' : CacheTree} {qs : List (List String)} (h : t.GrowsBy t' qs)
    {q : List String} (hq : ∀ k, t.kind q = some k → k = .dir) :
    ∀ k, t'.kind q = some k → k = .dir := fun k hk => by
  rcases h.kind q with h | ⟨-, hd, -⟩
  · exact hq k (h ▸ hk)
  · rw [hd] at hk; cases hk; rfl

theorem mkdir_eq_ok {t t' : CacheTree} {p : List String} (h : t.mkdir p = .ok t') :
    t.kind p = none ∧ t'.kind p = some .dir ∧ t.GrowsBy t' [p] := by
  unfold mkdir at h
  split_ifs at h with hlong hnone
  split at h <;> cases h
  refine ⟨hnone, by simp, rfl, fun q => ?_⟩
  by_cases hq : q = p
  · subst hq; exact .inr ⟨hnone, by simp, List.mem_singleton_self _⟩
  · exact .inl (by simp [hq])

theorem mkdir_eq_error {t : CacheTree} {p : List String} {e : Int} (h : t.mkdir p = .error e) :
    (e = EEXIST ∧ nameTooLong p = false ∧ t.kind p ≠ none) ∨
      (e ≠ EEXIST ∧ (t.kind p.dropLast ≠ some .dir ∨ nameTooLong p = true ∨ t.refuses p ≠ none)) := by
  unfold mkdir at h
  split_ifs at h with hlong hnone hparent
  · cases h; exact .inr ⟨by decide, .inr (.inl hlong)⟩
  · split at h <;> cases h
    exact .inr ⟨MkdirRefusal.errno_ne_eexist _, .inr (.inr (by simp [*]))⟩
  · cases h; exact .inr ⟨missErrno_ne_eexist _ _, .inl hparent⟩
  · cases h; exact .inl ⟨rfl, eq_false_of_ne_true hlong, hnone⟩

theorem mkdirPath_eq_ok {t t' : CacheTree} {P : List Char} (h : t.mkdirPath P = .ok t') :
    pathTooLong P = false ∧ t.kind (pathComponents P) = none ∧
      t'.kind (pathComponents P) = some .dir ∧ t.GrowsBy t' [pathComponents P] := by
  unfold mkdirPath at h
  split at h
  · cases h
  · exact ⟨eq_false_of_ne_true ‹_›, mkdir_eq_ok h⟩

theorem mkdirPath_eq_error {t : CacheTree} {P : List Char} {e : Int}
    (h : t.mkdirPath P = .error e) :
    (e = EEXIST ∧ pathTooLong P = false ∧ t.kind (pathComponents P) ≠ none) ∨
      (e ≠ EEXIST ∧ (t.kind (pathComponents P).dropLast ≠ some .dir ∨ t.admits P = false)) := by
  unfold mkdirPath at h
  split at h
  · cases h; exact .inr ⟨by decide, .inr (by simp [admits, *])⟩
  · rcases mkdir_eq_error h with ⟨rfl, -, hk⟩ | ⟨hne, hpar | hname | href⟩
    · exact .inl ⟨rfl, eq_false_of_ne_true ‹_›, hk⟩
    · exact .inr ⟨hne, .inl hpar⟩
    · exact .inr ⟨hne, .inr (by simp [admits, hname])⟩
    · exact .inr ⟨hne, .inr (by simp [admits, Option.ne_none_iff_isSome.mp href])⟩

theorem statPath_eq_ok {t : CacheTree} {P : List Char} {k : FileKind}
    (h : t.statPath P = .ok k) : pathTooLong P = false ∧ t.kind (pathComponents P) = some k := by
  unfold statPath stat at h
  split at h
  · cases h
  · split at h <;> cases h
    exact ⟨eq_false_of_ne_true ‹_›, ‹_›⟩

theorem statPath_eq_error {t : CacheTree} {P : List Char} {e : Int}
    (h : t.statPath P = .error e) : e ≠ EEXIST := by
  unfold statPath stat at h
  split at h
  · cases h; decide
  · split at h <;> cases h
    exact missErrno_ne_eexist _ _

theorem statPath_of_kind {t : CacheTree} {P : List Char} {k : FileKind}
    (hP : pathTooLong P = false) (hk : t.kind (pathComponents P) = some k) :
    t.statPath P = .ok k := by
  simp [statPath, stat, hP, hk]

theorem mkdirs_growsBy (t : CacheTree) (qs : List (List String)) :
    t.GrowsBy (t.mkdirs qs) qs := by
  induction qs generalizing t with
  | nil => exact GrowsBy.refl t []
  | cons q qs ih =>
    unfold mkdirs
    split
    · rename_i t' h
      exact ((mkdir_eq_ok h).2.2.trans (ih t')).mono (by simp)
    · exact (ih t).mono (List.subset_cons_self _ _)

end CacheTree

/-! ### The loop -/

/-- A call the loop makes: `stat` and whether it found a node, `mkdir` and the `errno` it
failed with, if it failed. -/
inductive FsCall where
  | stat (path : List Char) (found : Bool)
  | mkdir (path : List Char) (error : Option Int)
  deriving DecidableEq, Repr

/-- `status` and `errno`, the tree, the directories other threads create before each of the
next calls, and the calls made so far, oldest first. -/
structure EnsureState where
  status : Int
  errno : Int
  tree : CacheTree
  otherThreads : List (List (List String))
  calls : List FsCall

/-- The other threads' turn before a call. -/
def EnsureState.interleave (st : EnsureState) : EnsureState :=
  match st.otherThreads with
  | [] => st
  | qs :: rest => { st with tree := st.tree.mkdirs qs, otherThreads := rest }

/-- `status = mkdir(copypath, default_permission)`, after the other threads' turn. -/
def ensureMkdir (path : List Char) (st : EnsureState) : EnsureState :=
  let st := st.interleave
  match st.tree.mkdirPath path with
  | .ok t => { st with status := 0, tree := t, calls := st.calls ++ [.mkdir path none] }
  | .error e => { st with status := -1, errno := e, calls := st.calls ++ [.mkdir path (some e)] }

/-- `if (stat(copypath, &st) != 0) status = mkdir(...)`, after the other threads' turn. -/
def ensureStat (path : List Char) (st : EnsureState) : EnsureState :=
  let st := st.interleave
  match st.tree.statPath path with
  | .ok _ => { st with calls := st.calls ++ [.stat path true] }
  | .error e => ensureMkdir path { st with errno := e, calls := st.calls ++ [.stat path false] }

/-- The body of `if (slash != pp)`: `stat` of the path up to the slash, `mkdir` when that
fails, then the `errno == EEXIST` test. -/
def ensureComponent (path : List Char) (st : EnsureState) : EnsureState :=
  let st := ensureStat path st
  if st.errno = EEXIST then { st with status := 0, errno := 0 } else st

/-- The `while` loop from `pp` on: `pre` is `copypath` before `pp`, `comp` what the search
for the next `/` has passed since. -/
def ensureLoop (pre comp : List Char) : List Char → EnsureState → EnsureState
  | [], st => st
  | c :: cs, st =>
    if c = '/' then
      let st := if comp = [] then st else ensureComponent (pre ++ comp) st
      if st.status = 0 then ensureLoop (pre ++ comp ++ ['/']) [] cs st else st
    else ensureLoop pre (comp ++ [c]) cs st

/-- `strdup(file_path.c_str())`: the path up to its first NUL. -/
def cPath (filePath : String) : List Char :=
  filePath.data.takeWhile (· != Char.ofNat 0)

/-- `ensure_files_directory_exists_in_cache`: the status it returns and the state it
leaves. -/
def ensureFilesDirectoryExistsInCache (filePath : String) (tree : CacheTree)
    (otherThreads : List (List (List String))) : Int × EnsureState :=
  let st := ensureLoop [] [] (cPath filePath) ⟨0, 0, tree, otherThreads, []⟩
  (st.status, st)

namespace EnsureState

@[simp] theorem interleave_status (st : EnsureState) : st.interleave.status = st.status := by
  unfold interleave; split <;> rfl

@[simp] theorem interleave_errno (st : EnsureState) : st.interleave.errno = st.errno := by
  unfold interleave; split <;> rfl

@[simp] theorem interleave_calls (st : EnsureState) : st.interleave.calls = st.calls := by
  unfold interleave; split <;> rfl

theorem interleave_grows (st : EnsureState) :
    st.tree.GrowsBy st.interleave.tree st.otherThreads.flatten := by
  unfold interleave
  split
  · exact CacheTree.GrowsBy.refl _ _
  · rename_i qs rest h
    rw [h]
    exact (st.tree.mkdirs_growsBy qs).mono (List.subset_append_left _ _)

theorem interleave_others (st : EnsureState) :
    st.interleave.otherThreads.flatten ⊆ st.otherThreads.flatten := by
  unfold interleave
  split
  · exact List.Subset.refl _
  · rename_i qs rest h
    rw [h]
    exact List.subset_append_right _ _

end EnsureState

/-- The calls of one component: a `stat` that finds a node, or a `stat` that fails and a
`mkdir`. -/
def ComponentCalls (P : List Char) (b : List FsCall) : Prop :=
  b = [.stat P true] ∨ ∃ e, b = [.stat P false, .mkdir P e]

/-- What one component does to the loop's state. -/
structure ComponentStep (P : List Char) (st st' : EnsureState) : Prop where
  errno : st'.errno ≠ EEXIST
  calls : ∃ b, st'.calls = st.calls ++ b ∧ ComponentCalls P b
  grows : st.tree.GrowsBy st'.tree (st.otherThreads.flatten ++ [pathComponents P])
  others : st'.otherThreads.flatten ⊆ st.otherThreads.flatten
  outcome : (st'.status = 0 ∧ st'.tree.kind (pathComponents P) ≠ none ∧ pathTooLong P = false) ∨
    (st'.status = -1 ∧
      (st'.tree.kind (pathComponents P).dropLast ≠ some .dir ∨ st'.tree.admits P = false) ∧
      ∃ e, e ≠ EEXIST ∧ st'.calls.getLast? = some (.mkdir P (some e)))

theorem ensureMkdir_spec (P : List Char) (st : EnsureState) :
    let r := ensureMkdir P st
    r.otherThreads.flatten ⊆ st.otherThreads.flatten ∧
    st.tree.GrowsBy r.tree (st.otherThreads.flatten ++ [pathComponents P]) ∧
    (∃ e, r.calls = st.calls ++ [.mkdir P e]) ∧
    ((r.status = 0 ∧ r.errno = st.errno ∨ r.errno = EEXIST) ∧
        r.tree.kind (pathComponents P) ≠ none ∧ pathTooLong P = false ∨
      r.status = -1 ∧ r.errno ≠ EEXIST ∧
        (r.tree.kind (pathComponents P).dropLast ≠ some .dir ∨ r.tree.admits P = false) ∧
        r.calls.getLast? = some (.mkdir P (some r.errno))) := by
  have g := st.interleave_grows
  have o := st.interleave_others
  simp only [ensureMkdir]
  split
  · rename_i t hmk
    obtain ⟨hlong, -, hdir, g'⟩ := CacheTree.mkdirPath_eq_ok hmk
    exact ⟨o, g.trans g', ⟨none, by simp⟩, .inl ⟨.inl ⟨rfl, by simp⟩, by simp [hdir], hlong⟩⟩
  · rename_i e hmk
    refine ⟨o, g.mono (List.subset_append_left _ _), ⟨some e, by simp⟩, ?_⟩
    rcases CacheTree.mkdirPath_eq_error hmk with ⟨rfl, hlong, hex⟩ | ⟨hne, hfail⟩
    · exact .inl ⟨.inr rfl, hex, hlong⟩
    · exact .inr ⟨rfl, hne, hfail, by simp⟩

theorem ensureStat_spec (P : List Char) (st : EnsureState) (he : st.errno ≠ EEXIST) :
    let r := ensureStat P st
    r.otherThreads.flatten ⊆ st.otherThreads.flatten ∧
    st.tree.GrowsBy r.tree (st.otherThreads.flatten ++ [pathComponents P]) ∧
    (∃ b, r.calls = st.calls ++ b ∧ ComponentCalls P b) ∧
    ((r.status = st.status ∧ r.errno ≠ EEXIST ∨ r.status = 0 ∧ r.errno ≠ EEXIST ∨
        r.errno = EEXIST) ∧ r.tree.kind (pathComponents P) ≠ none ∧ pathTooLong P = false ∨
      r.status = -1 ∧ r.errno ≠ EEXIST ∧
        (r.tree.kind (pathComponents P).dropLast ≠ some .dir ∨ r.tree.admits P = false) ∧
        r.calls.getLast? = some (.mkdir P (some r.errno))) := by
  have g := st.interleave_grows
  have o := st.interleave_others
  simp only [ensureStat]
  split
  · rename_i k hstat
    obtain ⟨hlong, hk⟩ := CacheTree.statPath_eq_ok hstat
    exact ⟨o, g.mono (List.subset_append_left _ _), ⟨_, by simp, .inl rfl⟩,
      .inl ⟨.inl ⟨by simp, by simpa using he⟩, by simp [hk], hlong⟩⟩
  · rename_i e hstat
    obtain ⟨o', g', ⟨e', hcalls⟩, hout⟩ := ensureMkdir_spec P
      { st.interleave with errno := e, calls := st.interleave.calls ++ [FsCall.stat P false] }
    dsimp only at o' g' hcalls hout
    refine ⟨o'.trans o, (g.trans g').mono (List.append_subset.mpr ⟨List.subset_append_left _ _,
        List.append_subset.mpr ⟨o.trans (List.subset_append_left _ _), List.subset_append_right _ _⟩⟩),
      ⟨_, by rw [hcalls]; simp, .inr ⟨e', rfl⟩⟩, ?_⟩
    rcases hout with ⟨⟨hs, herr⟩ | hex, hk⟩ | hfail
    · exact .inl ⟨.inr (.inl ⟨hs, by rw [herr]; exact CacheTree.statPath_eq_error hstat⟩), hk⟩
    · exact .inl ⟨.inr (.inr hex), hk⟩
    · exact .inr hfail

theorem ensureComponent_step (P : List Char) {st : EnsureState} (hs : st.status = 0)
    (he : st.errno ≠ EEXIST) : ComponentStep P st (ensureComponent P st) := by
  obtain ⟨o, g, hcalls, hout⟩ := ensureStat_spec P st he
  simp only [ensureComponent]
  split
  · rename_i hex
    rcases hout with ⟨-, hk⟩ | ⟨-, hne, -⟩
    · exact ⟨(by decide : (0 : Int) ≠ EEXIST), hcalls, g, o, .inl ⟨rfl, hk⟩⟩
    · exact absurd hex hne
  · rename_i hne
    refine ⟨hne, hcalls, g, o, ?_⟩
    rcases hout with ⟨⟨hst, -⟩ | ⟨hst, -⟩ | hex, hk⟩ | hfail
    · exact .inl ⟨hst.trans hs, hk⟩
    · exact .inl ⟨hst, hk⟩
    · exact absurd hex hne
    · exact .inr ⟨hfail.1, hfail.2.2.1, _, hfail.2.1, hfail.2.2.2⟩

/-! ### The prefixes the loop stops at -/

/-- A prefix of `path` that ends just before a `/` and has a non-empty last component. -/
def IsSlashPrefix (path P : List Char) : Prop :=
  ∃ init c rest, P = init ++ [c] ∧ c ≠ '/' ∧ path = P ++ '/' :: rest

/-- The same prefixes, shortest first. -/
def slashPrefixes : List Char → List (List Char)
  | [] => []
  | c :: path =>
    (if c ≠ '/' ∧ path.head? = some '/' then [[c]] else []) ++ (slashPrefixes path).map (c :: ·)

theorem isSlashPrefix_cons {c : Char} {path P : List Char} :
    IsSlashPrefix (c :: path) P ↔
      (P = [c] ∧ c ≠ '/' ∧ path.head? = some '/') ∨ ∃ P', P = c :: P' ∧ IsSlashPrefix path P' := by
  constructor
  · rintro ⟨init, d, rest, rfl, hd, h⟩
    cases init with
    | nil =>
      simp only [List.nil_append, List.singleton_append, List.cons.injEq] at h
      obtain ⟨rfl, rfl⟩ := h
      exact .inl ⟨rfl, hd, rfl⟩
    | cons i init =>
      simp only [List.cons_append, List.cons.injEq] at h
      obtain ⟨rfl, rfl⟩ := h
      exact .inr ⟨init ++ [d], rfl, init, d, rest, rfl, hd, rfl⟩
  · rintro (⟨rfl, hc, hhead⟩ | ⟨P', rfl, init, d, rest, rfl, hd, rfl⟩)
    · obtain ⟨rest, rfl⟩ : ∃ rest, path = '/' :: rest := by
        cases path with
        | nil => cases hhead
        | cons x rest => cases hhead; exact ⟨rest, rfl⟩
      exact ⟨[], c, rest, rfl, hc, rfl⟩
    · exact ⟨c :: init, d, rest, rfl, hd, by simp⟩

theorem mem_slashPrefixes {path P : List Char} : P ∈ slashPrefixes path ↔ IsSlashPrefix path P := by
  induction path generalizing P with
  | nil => simp [slashPrefixes, IsSlashPrefix]
  | cons c path ih =>
    rw [isSlashPrefix_cons]
    simp only [slashPrefixes, List.mem_append, List.mem_map, ih]
    constructor
    · rintro (h | ⟨P', hP', rfl⟩)
      · split at h
        · exact .inl ⟨List.mem_singleton.mp h, ‹_›⟩
        · cases h
      · exact .inr ⟨P', rfl, hP'⟩
    · rintro (⟨rfl, hc, hh⟩ | ⟨P', rfl, hP'⟩)
      · exact .inl (by simp [hc, hh])
      · exact .inr ⟨P', hP', rfl⟩

theorem slashPrefixes_append {comp : List Char} (hcomp : '/' ∉ comp) (cs : List Char) :
    slashPrefixes (comp ++ cs) =
      (if comp ≠ [] ∧ cs.head? = some '/' then [comp] else []) ++
        (slashPrefixes cs).map (comp ++ ·) := by
  induction comp with
  | nil => simp
  | cons a comp ih =>
    have ha : a ≠ '/' := fun h => hcomp (h ▸ List.mem_cons_self _ _)
    rw [List.cons_append, slashPrefixes, ih (fun h => hcomp (List.mem_cons_of_mem _ h))]
    cases comp with
    | nil => by_cases h : cs.head? = some '/' <;> simp [ha, h]
    | cons b comp =>
      have hb : b ≠ '/' := fun h => hcomp (h ▸ by simp)
      by_cases h : cs.head? = some '/' <;> simp [ha, hb, h, Function.comp_def]

theorem slashPrefixes_of_slash_free {comp : List Char} (hcomp : '/' ∉ comp) :
    slashPrefixes comp = [] := by
  simpa [slashPrefixes] using slashPrefixes_append hcomp []

theorem slashPrefixes_append_slash {comp : List Char} (hcomp : '/' ∉ comp) (cs : List Char) :
    slashPrefixes (comp ++ '/' :: cs) =
      (if comp = [] then [] else [comp]) ++ (slashPrefixes cs).map (comp ++ '/' :: ·) := by
  rw [slashPrefixes_append hcomp, slashPrefixes]
  by_cases hne : comp = [] <;> simp [hne, Function.comp_def]

/-- The components the loop handles in order, up to the first that fails. -/
def ensurePrefixes : List (List Char) → EnsureState → EnsureState
  | [], st => st
  | P :: Ps, st =>
    let st := ensureComponent P st
    if st.status = 0 then ensurePrefixes Ps st else st

theorem ensureLoop_eq_ensurePrefixes (pre comp cs : List Char) (st : EnsureState)
    (hcomp : '/' ∉ comp) (hst : st.status = 0) :
    ensureLoop pre comp cs st = ensurePrefixes ((slashPrefixes (comp ++ cs)).map (pre ++ ·)) st := by
  induction cs generalizing pre comp st with
  | nil => simp [ensureLoop, slashPrefixes_of_slash_free hcomp, ensurePrefixes]
  | cons c cs ih =>
    by_cases hc : c = '/'
    · subst hc
      rw [slashPrefixes_append_slash hcomp]
      by_cases hne : comp = []
      · subst hne
        simp [ensureLoop, hst, ih _ [] st (List.not_mem_nil _) hst, Function.comp_def]
      · simp only [ensureLoop, hne, if_true, if_false, List.singleton_append, List.map_cons,
          ensurePrefixes]
        split
        · simp [ih _ [] _ (List.not_mem_nil _) ‹_›, Function.comp_def]
        · rfl
    · have hcomp' : '/' ∉ comp ++ [c] := by simp [hcomp, Ne.symm hc]
      simpa [ensureLoop, hc] using ih pre (comp ++ [c]) st hcomp' hst

/-! ### Runs -/

/-- What handling the components `Ps` in order does to the loop's state. -/
structure PrefixesRun (Ps : List (List Char)) (st st' : EnsureState) : Prop where
  errno : st'.errno ≠ EEXIST
  calls : ∃ Qs blocks, Qs <+: Ps ∧ List.Forall₂ ComponentCalls Qs blocks ∧
    st'.calls = st.calls ++ blocks.flatten
  grows : st.tree.GrowsBy st'.tree (st.otherThreads.flatten ++ Ps.map pathComponents)
  others : st'.otherThreads.flatten ⊆ st.otherThreads.flatten
  outcome : (st'.status = 0 ∧
      ∀ P ∈ Ps, st'.tree.kind (pathComponents P) ≠ none ∧ pathTooLong P = false) ∨
    (st'.status = -1 ∧ ∃ P e, e ≠ EEXIST ∧ st'.calls.getLast? = some (.mkdir P (some e)))

theorem ensurePrefixes_run (Ps : List (List Char)) {st : EnsureState} (hs : st.status = 0)
    (he : st.errno ≠ EEXIST) : PrefixesRun Ps st (ensurePrefixes Ps st) := by
  induction Ps generalizing st with
  | nil =>
    exact ⟨he, ⟨[], [], List.nil_prefix, .nil, by simp [ensurePrefixes]⟩, CacheTree.GrowsBy.refl _ _,
      List.Subset.refl _, .inl ⟨hs, by simp⟩⟩
  | cons P Ps ih =>
    have step := ensureComponent_step P hs he
    obtain ⟨b, hb, hcalls⟩ := step.calls
    simp only [ensurePrefixes]
    split
    · rename_i hs₁
      have run := ih hs₁ step.errno
      obtain ⟨Qs, blocks, hpre, hall, hrun⟩ := run.calls
      refine ⟨run.errno, ⟨P :: Qs, b :: blocks, List.prefix_cons_inj _ |>.mpr hpre,
        .cons hcalls hall, by simp [hrun, hb]⟩, (step.grows.trans run.grows).mono fun q hq => ?_,
        run.others.trans step.others, ?_⟩
      · simp only [List.mem_append, List.map_cons, List.mem_cons, List.not_mem_nil, or_false]
          at hq ⊢
        rcases hq with (h | h) | h | h
        exacts [.inl h, .inr (.inl h), .inl (step.others h), .inr (.inr h)]
      · rcases run.outcome with ⟨h0, hall'⟩ | hfail
        · refine .inl ⟨h0, fun Q hQ => ?_⟩
          rcases List.mem_cons.mp hQ with rfl | hQ
          · rcases step.outcome with ⟨-, hk, hlong⟩ | ⟨h, -⟩
            · exact ⟨run.grows.kind_ne_none hk, hlong⟩
            · rw [h] at hs₁; cases hs₁
          · exact hall' Q hQ
        · exact .inr hfail
    · rename_i hs₁
      refine ⟨step.errno, ⟨[P], [b], by simp, .cons hcalls .nil, by simp [hb]⟩,
        step.grows.mono (by simp), step.others, ?_⟩
      rcases step.outcome with ⟨h, -⟩ | ⟨h, -, hfail⟩
      · exact absurd h hs₁
      · exact .inr ⟨h, P, hfail⟩

theorem componentCalls_length {Qs : List (List Char)} {blocks : List (List FsCall)}
    (h : List.Forall₂ ComponentCalls Qs blocks) : blocks.flatten.length ≤ 2 * Qs.length := by
  induction h with
  | nil => simp
  | cons hb _ ih =>
    rcases hb with rfl | ⟨e, rfl⟩ <;>
      simp only [List.flatten_cons, List.length_append, List.length_cons, List.length_nil] <;> omega

/-- What `ensure_files_directory_exists_in_cache` does, on every path and every tree, with
other threads creating directories between its calls. -/
structure EnsureOutcome (filePath : String) (t : CacheTree)
    (otherThreads : List (List (List String))) (r : Int) (st : EnsureState) : Prop where
  /-- one `stat` per prefix that ends before a `/` with a non-empty last component, in
  order, and `mkdir` only right after a `stat` that found nothing -/
  calls : ∃ Qs blocks, Qs <+: slashPrefixes (cPath filePath) ∧
    List.Forall₂ ComponentCalls Qs blocks ∧ st.calls = blocks.flatten
  /-- at most two calls per such prefix -/
  bound : st.calls.length ≤ 2 * (slashPrefixes (cPath filePath)).length
  /-- every node it leaves that was not there is a directory where there was nothing,
  asked for by another thread or at such a prefix -/
  creates : ∀ q, st.tree.kind q ≠ t.kind q → t.kind q = none ∧ st.tree.kind q = some .dir ∧
    (q ∈ otherThreads.flatten ∨ ∃ P, IsSlashPrefix (cPath filePath) P ∧ pathComponents P = q)
  /-- a non-zero return is `-1`, after a `mkdir` that failed with an `errno` other than
  `EEXIST` -/
  failure : r ≠ 0 → r = -1 ∧ ∃ P e, e ≠ EEXIST ∧ st.calls.getLast? = some (.mkdir P (some e))
  /-- on 0 every such prefix names a node: a directory, or the other node it named
  before -/
  success : r = 0 → ∀ P, IsSlashPrefix (cPath filePath) P →
    st.tree.kind (pathComponents P) = some .dir ∨
      ∃ k, k ≠ .dir ∧ t.kind (pathComponents P) = some k ∧ st.tree.kind (pathComponents P) = some k

theorem ensureFilesDirectoryExistsInCache_outcome (filePath : String) (t : CacheTree)
    (otherThreads : List (List (List String))) :
    EnsureOutcome filePath t otherThreads (ensureFilesDirectoryExistsInCache filePath t otherThreads).1
      (ensureFilesDirectoryExistsInCache filePath t otherThreads).2 := by
  simp only [ensureFilesDirectoryExistsInCache]
  rw [ensureLoop_eq_ensurePrefixes [] [] _ _ (List.not_mem_nil _) rfl]
  simp only [List.nil_append, List.map_id']
  have run : PrefixesRun (slashPrefixes (cPath filePath)) ⟨0, 0, t, otherThreads, []⟩ _ :=
    ensurePrefixes_run _ rfl (by decide : (0 : Int) ≠ EEXIST)
  obtain ⟨Qs, blocks, hpre, hall, hcalls⟩ := run.calls
  refine ⟨⟨Qs, blocks, hpre, hall, by simpa using hcalls⟩, ?_, fun q hq => ?_, fun hr => ?_,
    fun hr P hP => ?_⟩
  · rw [hcalls]
    simpa using (componentCalls_length hall).trans (Nat.mul_le_mul_left 2 hpre.length_le)
  · rcases run.grows.kind q with h | ⟨hn, hd, hmem⟩
    · exact absurd h hq
    · refine ⟨hn, hd, ?_⟩
      rcases List.mem_append.mp hmem with h | h
      · exact .inl h
      · obtain ⟨P, hP, rfl⟩ := List.mem_map.mp h
        exact .inr ⟨P, mem_slashPrefixes.mp hP, rfl⟩
  · rcases run.outcome with ⟨h0, -⟩ | ⟨h, hfail⟩
    · exact absurd h0 hr
    · exact ⟨h, hfail⟩
  · rcases run.outcome with ⟨-, hall'⟩ | ⟨h, -⟩
    · have hk := (hall' P (mem_slashPrefixes.mpr hP)).1
      rcases run.grows.kind (pathComponents P) with h | ⟨-, hd, -⟩
      · obtain ⟨k, hk'⟩ := Option.ne_none_iff_exists'.mp hk
        by_cases hdir : k = .dir
        · exact .inl (hdir ▸ hk')
        · exact .inr ⟨k, hdir, h ▸ hk', hk'⟩
      · exact .inl hd
    · rw [hr] at h; cases h

/-- Another thread creates `a` between the `stat` and the `mkdir` of `/a`: that `mkdir`
fails with `EEXIST`, the loop goes on to create `a/b`, and it returns 0. -/
theorem ensureFilesDirectoryExistsInCache_lost_race :
    EnsureOutcome "/a/b/f" .root [[], [["a"]]]
      (ensureFilesDirectoryExistsInCache "/a/b/f" .root [[], [["a"]]]).1
      (ensureFilesDirectoryExistsInCache "/a/b/f" .root [[], [["a"]]]).2 ∧
    (ensureFilesDirectoryExistsInCache "/a/b/f" .root [[], [["a"]]]).1 = 0 ∧
    (ensureFilesDirectoryExistsInCache "/a/b/f" .root [[], [["a"]]]).2.calls =
      [.stat "/a".data false, .mkdir "/a".data (some EEXIST), .stat "/a/b".data false,
        .mkdir "/a/b".data none] ∧
    (ensureFilesDirectoryExistsInCache "/a/b/f" .root [[], [["a"]]]).2.tree.kind ["a", "b"] =
      some .dir :=
  ⟨ensureFilesDirectoryExistsInCache_outcome _ _ _, by decide, by decide, by decide⟩

/-- The cache holds a regular file `a`: `stat` finds it, no `mkdir` follows, the call
returns 0 and `a` is still a regular file. -/
theorem ensureFilesDirectoryExistsInCache_accepts_file_prefix :
    IsSlashPrefix (cPath "/a/x") "/a".data ∧
    (ensureFilesDirectoryExistsInCache "/a/x" (CacheTree.root.insert ["a"] .reg rfl rfl) []).1 = 0 ∧
    (ensureFilesDirectoryExistsInCache "/a/x" (CacheTree.root.insert ["a"] .reg rfl rfl) []).2.calls =
      [.stat "/a".data true] ∧
    (ensureFilesDirectoryExistsInCache "/a/x" (CacheTree.root.insert ["a"] .reg rfl rfl) []).2.tree.kind
      (pathComponents "/a".data) = some .reg :=
  ⟨⟨['/'], 'a', ['x'], rfl, by decide, by decide⟩, by decide, by decide, by decide⟩

/-! ### Parents first -/

theorem chain_slashPrefixes (pre comp cs : List Char) (hpre : pre = [] ∨ ∃ pre', pre = pre' ++ ['/'])
    (hcomp : '/' ∉ comp) :
    List.Chain (fun q p => p.dropLast = q) (pathComponents pre)
      ((slashPrefixes (comp ++ cs)).map fun P => pathComponents (pre ++ P)) := by
  induction cs generalizing pre comp with
  | nil => simp [slashPrefixes_of_slash_free hcomp]
  | cons c cs ih =>
    by_cases hc : c = '/'
    · subst hc
      have hslash : pathComponents (pre ++ comp ++ ['/']) = pathComponents (pre ++ comp) := by
        simpa using pathComponents_append_slash (pre ++ comp) []
      have hnext := ih (pre ++ comp ++ ['/']) [] (.inr ⟨_, rfl⟩) (List.not_mem_nil _)
      simp only [hslash, List.nil_append, List.map_map, Function.comp_def] at hnext
      rw [slashPrefixes_append_slash hcomp]
      by_cases hne : comp = []
      · subst hne
        simpa using hnext
      · simp only [hne, if_false, List.singleton_append, List.map_cons, List.map_map,
          List.chain_cons]
        exact ⟨pathComponents_dropLast hpre hne hcomp, by simpa using hnext⟩
    · have hcomp' : '/' ∉ comp ++ [c] := by simp [hcomp, Ne.symm hc]
      simpa using ih pre (comp ++ [c]) hpre hcomp'

/-- Handling prefixes whose keys form a chain of parents from a directory, when none of them
is anything but a directory: every `mkdir` finds its parent, so the run ends with 0 and all
of them directories. -/
theorem ensurePrefixes_dirs (Ps : List (List Char)) {par : List String}
    (hchain : List.Chain (fun q p => p.dropLast = q) par (Ps.map pathComponents))
    {st : EnsureState} (hs : st.status = 0) (he : st.errno ≠ EEXIST)
    (hpar : st.tree.kind par = some .dir)
    (hdirs : ∀ P ∈ Ps, ∀ k, st.tree.kind (pathComponents P) = some k → k = .dir)
    (hadmits : ∀ P ∈ Ps, st.tree.admits P = true) :
    (ensurePrefixes Ps st).status = 0 ∧
      ∀ P ∈ Ps, (ensurePrefixes Ps st).tree.kind (pathComponents P) = some .dir := by
  induction Ps generalizing par st with
  | nil => exact ⟨hs, by simp⟩
  | cons P Ps ih =>
    rw [List.map_cons, List.chain_cons] at hchain
    obtain ⟨hparent, hchain⟩ := hchain
    have step := ensureComponent_step P hs he
    have hdirP := hdirs P (List.mem_cons_self _ _)
    have hP : (ensureComponent P st).status = 0 ∧
        (ensureComponent P st).tree.kind (pathComponents P) = some .dir := by
      rcases step.outcome with ⟨h0, hk, -⟩ | ⟨-, hpar' | hadm, -⟩
      · refine ⟨h0, ?_⟩
        obtain ⟨k, hk'⟩ := Option.ne_none_iff_exists'.mp hk
        rw [hk', step.grows.dir_of_dir hdirP k hk']
      · exact absurd (hparent ▸ step.grows.kind_of_some hpar) hpar'
      · rw [step.grows.admits, hadmits P (List.mem_cons_self _ _)] at hadm; cases hadm
    have run := ensurePrefixes_run Ps hP.1 step.errno
    obtain ⟨h0, hall⟩ := ih hchain hP.1 step.errno hP.2
      (fun Q hQ => step.grows.dir_of_dir (hdirs Q (List.mem_cons_of_mem _ hQ)))
      (fun Q hQ => by rw [step.grows.admits]; exact hadmits Q (List.mem_cons_of_mem _ hQ))
    simp only [ensurePrefixes, hP.1, if_true]
    refine ⟨h0, fun Q hQ => ?_⟩
    rcases List.mem_cons.mp hQ with rfl | hQ
    · exact run.grows.kind_of_some hP.2
    · exact hall Q hQ

/-- When no prefix that ends before a `/` with a non-empty last component names anything
but a directory, and the file system admits a `mkdir` of each, the call returns 0 and leaves
every such prefix a directory, whatever directories other threads create meanwhile. -/
theorem ensureFilesDirectoryExistsInCache_creates_all (filePath : String) (t : CacheTree)
    (otherThreads : List (List (List String)))
    (hdirs : ∀ P, IsSlashPrefix (cPath filePath) P →
      ∀ k, t.kind (pathComponents P) = some k → k = .dir)
    (hadmits : ∀ P, IsSlashPrefix (cPath filePath) P → t.admits P = true) :
    (ensureFilesDirectoryExistsInCache filePath t otherThreads).1 = 0 ∧
    ∀ P, IsSlashPrefix (cPath filePath) P →
      (ensureFilesDirectoryExistsInCache filePath t otherThreads).2.tree.kind (pathComponents P) =
        some .dir := by
  simp only [ensureFilesDirectoryExistsInCache]
  rw [ensureLoop_eq_ensurePrefixes [] [] _ _ (List.not_mem_nil _) rfl]
  have hchain := chain_slashPrefixes [] [] (cPath filePath) (.inl rfl) (List.not_mem_nil _)
  simp only [List.nil_append, List.map_id'] at hchain ⊢
  have hdirs' : ∀ P ∈ slashPrefixes (cPath filePath), ∀ k,
      (⟨0, 0, t, otherThreads, []⟩ : EnsureState).tree.kind (pathComponents P) = some k →
        k = .dir := fun P hP => hdirs P (mem_slashPrefixes.mp hP)
  obtain ⟨h0, hall⟩ := ensurePrefixes_dirs _ hchain rfl (by decide : (0 : Int) ≠ EEXIST)
    t.kind_root hdirs' fun P hP => hadmits P (mem_slashPrefixes.mp hP)
  exact ⟨h0, fun P hP => hall P (mem_slashPrefixes.mpr hP)⟩

/-- In the race above, from a cache holding only its root. -/
theorem ensureFilesDirectoryExistsInCache_creates_all_after_race :
    (∀ P, IsSlashPrefix (cPath "/a/b/f") P →
      ∀ k, CacheTree.root.kind (pathComponents P) = some k → k = .dir) ∧
    (∀ P, IsSlashPrefix (cPath "/a/b/f") P → CacheTree.root.admits P = true) ∧
    (ensureFilesDirectoryExistsInCache "/a/b/f" .root [[], [["a"]]]).1 = 0 ∧
    ∀ P, IsSlashPrefix (cPath "/a/b/f") P →
      (ensureFilesDirectoryExistsInCache "/a/b/f" .root [[], [["a"]]]).2.tree.kind
        (pathComponents P) = some .dir :=
  have hdirs : ∀ P, IsSlashPrefix (cPath "/a/b/f") P →
      ∀ k, CacheTree.root.kind (pathComponents P) = some k → k = .dir := fun _ _ k hk => by
    simp only [CacheTree.root] at hk
    split at hk <;> cases hk
    rfl
  have hadmits : ∀ P, IsSlashPrefix (cPath "/a/b/f") P → CacheTree.root.admits P = true :=
    fun P hP => by
      have hPs : slashPrefixes (cPath "/a/b/f") = ["/a".data, "/a/b".data] := by decide
      have hmem := mem_slashPrefixes.mpr hP
      rw [hPs] at hmem
      rcases List.mem_pair.mp hmem with rfl | rfl <;> decide
  ⟨hdirs, hadmits, ensureFilesDirectoryExistsInCache_creates_all "/a/b/f" .root _ hdirs hadmits⟩

/-! ### A second call -/

theorem ensurePrefixes_found (Ps : List (List Char)) {st : EnsureState} (hs : st.status = 0)
    (he : st.errno = 0)
    (hfound : ∀ P ∈ Ps, st.tree.kind (pathComponents P) ≠ none ∧ pathTooLong P = false) :
    (ensurePrefixes Ps st).status = 0 ∧
      (ensurePrefixes Ps st).calls = st.calls ++ Ps.map fun P => .stat P true := by
  induction Ps generalizing st with
  | nil => simp [ensurePrefixes, hs]
  | cons P Ps ih =>
    obtain ⟨hP, hlong⟩ := hfound P (List.mem_cons_self _ _)
    obtain ⟨k, hk⟩ := Option.ne_none_iff_exists'.mp (st.interleave_grows.kind_ne_none hP)
    obtain ⟨st₁, hst₁⟩ : ∃ st₁ : EnsureState,
        st₁ = { st.interleave with calls := st.calls ++ [.stat P true] } := ⟨_, rfl⟩
    have hstep : ensureComponent P st = st₁ := by
      simp [hst₁, ensureComponent, ensureStat, CacheTree.statPath_of_kind hlong hk, he, hs,
        (by decide : (0 : Int) ≠ EEXIST).symm]
    have hs₁ : st₁.status = 0 := by simp [hst₁, hs]
    obtain ⟨h0, hcalls⟩ := ih hs₁ (by simp [hst₁, he]) fun Q hQ => by
      obtain ⟨hQ', hlong'⟩ := hfound Q (List.mem_cons_of_mem _ hQ)
      simpa [hst₁, hlong'] using st.interleave_grows.kind_ne_none hQ'
    simp only [ensurePrefixes, hstep, hs₁, if_true]
    exact ⟨h0, by rw [hcalls, hst₁]; simp⟩

/-- Once `ensure_files_directory_exists_in_cache` has returned 0, a second call on the same
path returns 0 with one successful `stat` per prefix ending before a `/` and no `mkdir`,
whatever directories other threads create during either call. -/
theorem ensureFilesDirectoryExistsInCache_again (filePath : String) (t : CacheTree)
    (otherThreads otherThreads' : List (List (List String)))
    (h0 : (ensureFilesDirectoryExistsInCache filePath t otherThreads).1 = 0) :
    (ensureFilesDirectoryExistsInCache filePath
        (ensureFilesDirectoryExistsInCache filePath t otherThreads).2.tree otherThreads').1 = 0 ∧
    (ensureFilesDirectoryExistsInCache filePath
        (ensureFilesDirectoryExistsInCache filePath t otherThreads).2.tree otherThreads').2.calls =
      (slashPrefixes (cPath filePath)).map fun P => .stat P true := by
  simp only [ensureFilesDirectoryExistsInCache] at h0 ⊢
  rw [ensureLoop_eq_ensurePrefixes [] [] _ _ (List.not_mem_nil _) rfl] at h0 ⊢
  rw [ensureLoop_eq_ensurePrefixes [] [] _ _ (List.not_mem_nil _) rfl]
  simp only [List.nil_append, List.map_id'] at h0 ⊢
  have run : PrefixesRun (slashPrefixes (cPath filePath)) ⟨0, 0, t, otherThreads, []⟩ _ :=
    ensurePrefixes_run _ rfl (by decide : (0 : Int) ≠ EEXIST)
  rcases run.outcome with ⟨-, hall⟩ | ⟨h, -⟩
  · have hfound : ∀ P ∈ slashPrefixes (cPath filePath),
        (⟨0, 0, _, otherThreads', []⟩ : EnsureState).tree.kind (pathComponents P) ≠ none ∧
          pathTooLong P = false := hall
    simpa using ensurePrefixes_found _ rfl rfl hfound
  · rw [h0] at h; cases h

/-- After the race above, a second call on `/a/b/f` only finds `a` and `a/b`. -/
theorem ensureFilesDirectoryExistsInCache_again_after_race :
    (ensureFilesDirectoryExistsInCache "/a/b/f" .root [[], [["a"]]]).1 = 0 ∧
    (ensureFilesDirectoryExistsInCache "/a/b/f"
        (ensureFilesDirectoryExistsInCache "/a/b/f" .root [[], [["a"]]]).2.tree []).1 = 0 ∧
    (ensureFilesDirectoryExistsInCache "/a/b/f"
        (ensureFilesDirectoryExistsInCache "/a/b/f" .root [[], [["a"]]]).2.tree []).2.calls =
      (slashPrefixes (cPath "/a/b/f")).map fun P => .stat P true :=
  have h0 : (ensureFilesDirectoryExistsInCache "/a/b/f" .root [[], [["a"]]]).1 = 0 := by decide
  ⟨h0, ensureFilesDirectoryExistsInCache_again "/a/b/f" .root _ [] h0⟩

end BlobFuse
