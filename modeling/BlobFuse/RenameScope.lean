import BlobFuse.Rename
import Mathlib.Tactic.ExtractLets
import Mathlib.Tactic.LiftLets

/-! Where `azs_rename_directory` reaches. At every depth of its recursion it renames a path
of the source tree to the path of the destination tree with the same relative name, and it
removes only paths of the source tree: the marker blob, the local and the listed entries
and the subdirectories all keep the relative name, as `srcPathStr` and `dstPathStr` receive
the same `d_name` or `prev_token_str`. -/
namespace BlobFuse

/-- The path `u` below `root` as the recursion spells it: `root` itself for the empty
name, else `root` with the `/` the code appends, then `u`. -/
def underPath (root u : String) : String :=
  if u = "" then root else withSlash root ++ u

/-- The relative name `u` inside the entry `n`. -/
def joinPath (n u : String) : String :=
  if u = "" then n else n ++ "/" ++ u

/-- A call inside the two trees: the rename of `src/u` to `dst/u`, or the removal of
`src/u`. -/
def InTrees (src dst : String) (c : RenameCall) : Prop :=
  ∃ u, c = .renameSingleFile (underPath src u) (underPath dst u) ∨ c = .rmdir (underPath src u)

/-- `w'` is `w` with calls added, each satisfying `P`. -/
def AddsCalls (P : RenameCall → Prop) (w w' : RenameWorld) : Prop :=
  ∃ new, w'.calls = w.calls ++ new ∧ ∀ c ∈ new, P c

/-! ### Paths -/

theorem utf8ByteSize_go_append : ∀ l₁ l₂ : List Char,
    String.utf8ByteSize.go (l₁ ++ l₂) = String.utf8ByteSize.go l₁ + String.utf8ByteSize.go l₂
  | [], _ => by simp [String.utf8ByteSize.go]
  | c :: l₁, l₂ => by
    rw [List.cons_append, String.utf8ByteSize.go, String.utf8ByteSize.go, utf8ByteSize_go_append l₁ l₂]
    omega

theorem utf8ByteSize_pos {s : String} (hs : s ≠ "") : 0 < String.utf8ByteSize.go s.data := by
  cases h : s.data with
  | nil => exact absurd (String.ext h) hs
  | cons c cs =>
    have := Char.utf8Size_pos c
    simp only [String.utf8ByteSize.go]
    omega

theorem append_ne_empty {a b : String} (hb : b ≠ "") : a ++ b ≠ "" := fun h =>
  hb (String.ext (List.append_eq_nil.mp (congrArg String.data h)).2)

theorem withSlash_ne_empty {s : String} (hs : s ≠ "") : withSlash s ≠ "" := by
  unfold withSlash
  split
  · intro h
    simpa using congrArg (·.data.length) h
  · exact hs

theorem withSlash_append {a n : String} (ha : a ≠ "") (hn : n ≠ "") :
    withSlash (a ++ n) = (a ++ n).push '/' := by
  have hlen : 1 < (a ++ n).utf8ByteSize := by
    show 1 < String.utf8ByteSize.go (a ++ n).data
    rw [String.data_append, utf8ByteSize_go_append]
    have := utf8ByteSize_pos ha
    have := utf8ByteSize_pos hn
    omega
  simp [withSlash, hlen]

theorem underPath_underPath {root n : String} (hroot : root ≠ "") (hn : n ≠ "") (u : String) :
    underPath (underPath root n) u = underPath root (joinPath n u) := by
  by_cases hu : u = ""
  · simp [underPath, joinPath, hu, hn]
  · have hjoin : n ++ "/" ++ u ≠ "" := append_ne_empty hu
    simp only [underPath, joinPath, hu, hn, hjoin, if_false,
      withSlash_append (withSlash_ne_empty hroot) hn]
    simp [String.ext_iff]

/-! ### Calls added -/

namespace AddsCalls

variable {P Q : RenameCall → Prop} {w w₁ w₂ : RenameWorld}

theorem refl (P : RenameCall → Prop) (w : RenameWorld) : AddsCalls P w w :=
  ⟨[], by simp, by simp⟩

theorem of_calls (h : AddsCalls P w w₁) (he : w₂.calls = w₁.calls) : AddsCalls P w w₂ := by
  obtain ⟨n, e, p⟩ := h
  exact ⟨n, he.trans e, p⟩

theorem trans (h₁ : AddsCalls P w w₁) (h₂ : AddsCalls P w₁ w₂) : AddsCalls P w w₂ := by
  obtain ⟨n₁, e₁, p₁⟩ := h₁
  obtain ⟨n₂, e₂, p₂⟩ := h₂
  exact ⟨n₁ ++ n₂, by rw [e₂, e₁, List.append_assoc], fun c hc =>
    (List.mem_append.mp hc).elim (p₁ c) (p₂ c)⟩

theorem mono (h : AddsCalls P w w₁) (hPQ : ∀ c, P c → Q c) : AddsCalls Q w w₁ := by
  obtain ⟨n, e, p⟩ := h
  exact ⟨n, e, fun c hc => hPQ c (p c hc)⟩

end AddsCalls

theorem azsRenameSingleFile_adds {src dst : String} {w w' : RenameWorld} {r : Int × Int}
    (h : azsRenameSingleFile src dst w = some (r, w')) :
    AddsCalls (· = .renameSingleFile src dst) w w' := by
  unfold azsRenameSingleFile at h
  split at h
  · cases h; exact ⟨[_], rfl, by simp⟩
  · cases h

theorem foldlM_adds {α : Type} {P : RenameCall → Prop} (f : RenameWorld → α → Option RenameWorld)
    (es : List α) (hf : ∀ w e w', e ∈ es → f w e = some w' → AddsCalls P w w') :
    ∀ w w', es.foldlM f w = some w' → AddsCalls P w w' := by
  induction es with
  | nil => intro w w' h; cases h; exact .refl P w
  | cons e es ih =>
    intro w w' h
    rw [List.foldlM_cons] at h
    obtain ⟨w₁, h₁, h⟩ := Option.bind_eq_some.mp h
    exact (hf w e w₁ (List.mem_cons_self _ _) h₁).trans
      (ih (fun w e w' he => hf w e w' (List.mem_cons_of_mem _ he)) w₁ w' h)

/-! ### One entry -/

section Entry
variable {src dst n : String} {w w' : RenameWorld}
  {rec : String → String → RenameWorld → Option (Int × RenameWorld)}

theorem renameEntry_adds
    (ih : ∀ s d w r w', s ≠ "" → d ≠ "" → rec s d w = some (r, w') → AddsCalls (InTrees s d) w w')
    (hsrc : src ≠ "") (hdst : dst ≠ "") (hn : n ≠ "") (isDir : Bool)
    (h : (if isDir then (rec (withSlash src ++ n) (withSlash dst ++ n) w).map (·.2)
      else (azsRenameSingleFile (withSlash src ++ n) (withSlash dst ++ n) w).map (·.2)) = some w') :
    AddsCalls (InTrees src dst) w w' := by
  have hs : withSlash src ++ n = underPath src n := by simp [underPath, hn]
  have hd : withSlash dst ++ n = underPath dst n := by simp [underPath, hn]
  split at h
  · obtain ⟨⟨r, w₁⟩, hrec, rfl⟩ := Option.map_eq_some'.mp h
    refine (ih _ _ w r w₁ (append_ne_empty hn) (append_ne_empty hn) hrec).mono ?_
    rintro c ⟨u, hc⟩
    rw [hs, hd, underPath_underPath hsrc hn, underPath_underPath hdst hn] at hc
    exact ⟨_, hc⟩
  · obtain ⟨⟨r, w₁⟩, hone, rfl⟩ := Option.map_eq_some'.mp h
    refine (azsRenameSingleFile_adds hone).mono ?_
    rintro c rfl
    exact ⟨n, .inl (by rw [hs, hd])⟩

theorem renameRemoteEntry_adds
    (ih : ∀ s d w r w', s ≠ "" → d ≠ "" → rec s d w = some (r, w') → AddsCalls (InTrees s d) w w')
    (hsrc : src ≠ "") (hdst : dst ≠ "") (locals : List DirEntry) (item : ListItem)
    (h : renameRemoteEntry rec (withSlash src) (withSlash dst) locals w item = some w') :
    AddsCalls (InTrees src dst) w w' := by
  unfold renameRemoteEntry at h
  split at h
  · rename_i hr
    exact renameEntry_adds ih hsrc hdst (of_decide_eq_true hr).2.1 item.isDirectory h
  · cases h; exact .refl _ w

end Entry

/-- At every depth, `azs_rename_directory` renames only `src/u` to `dst/u` and removes only
paths `src/u`: the marker blob is `u` empty, each entry keeps its relative name, and a
subdirectory's own calls are inside it. `readdir` gives no empty name. -/
theorem azsRenameDirectory_inTrees (errorMapping : List (Int × Int))
    (localDir : String → Option (List DirEntry))
    (hnames : ∀ p es, localDir p = some es → ∀ e ∈ es, e.name ≠ "") :
    ∀ (fuel : Nat) (src dst : String) (w : RenameWorld) (r : Int) (w' : RenameWorld),
      src ≠ "" → dst ≠ "" →
      azsRenameDirectory errorMapping localDir fuel src dst w = some (r, w') →
      AddsCalls (InTrees src dst) w w'
  | 0, _, _, _, _, _, _, _, h => by cases h
  | fuel + 1, src, dst, w, r, w', hsrc, hdst, h => by
    have ih := azsRenameDirectory_inTrees errorMapping localDir hnames fuel
    rw [azsRenameDirectory, Option.bind_eq_bind, Option.bind_eq_some] at h
    obtain ⟨⟨props, script⟩, -, h⟩ := h
    dsimp -zeta only at h
    lift_lets at h
    extract_lets w₀ srcPath dstPath locals jp at h
    rw [← apply_ite (fun x => x >>= jp), Option.bind_eq_bind, Option.bind_eq_some] at h
    obtain ⟨y, hy, h⟩ := h
    have hy' : AddsCalls (InTrees src dst) w y.2 := by
      split at hy
      · obtain ⟨⟨⟨a, e⟩, w₁⟩, hs, rfl⟩ := Option.map_eq_some'.mp hy
        refine ((azsRenameSingleFile_adds hs).mono ?_).of_calls rfl
        rintro c rfl
        exact ⟨"", .inl (by simp [underPath])⟩
      · cases hy
        exact (AddsCalls.refl _ w).of_calls rfl
    simp only [jp] at h
    split at h
    · cases h; exact hy'
    simp only [Option.pure_def, Option.bind_eq_bind, Option.some_bind, Option.bind_eq_some] at h
    obtain ⟨w₂, hloc, ⟨res, e, script'⟩, -, h⟩ := h
    have hlocal : AddsCalls (InTrees src dst) y.2 w₂ := by
      refine foldlM_adds _ locals (fun w₁ d w₁' hd h => ?_) _ _ hloc
      have hname : d.name ≠ "" := by
        obtain ⟨hd, -⟩ := List.mem_filter.mp hd
        cases hl : localDir srcPath with
        | none => simp [hl] at hd
        | some es => exact hnames _ es hl d (by simpa [hl] using hd)
      exact renameEntry_adds ih hsrc hdst hname d.isDir h
    split at h
    · cases h; exact (hy'.trans hlocal).of_calls rfl
    obtain ⟨w₃, hrem, h⟩ := Option.bind_eq_some.mp h
    cases h
    have hremote := foldlM_adds _ _ (fun w₁ item w₁' _ h => renameRemoteEntry_adds ih hsrc hdst locals item h) _ _ hrem
    refine ((hy'.trans hlocal).of_calls rfl).trans (hremote.trans ⟨[.rmdir src], rfl, ?_⟩)
    simp only [List.mem_singleton, forall_eq]
    exact ⟨"", .inr (by simp [underPath])⟩

/-- `/a` holds a subdirectory `d` with a file `g`, and a file `f`, in the local cache: the
recursion renames `/a/d/g` to `/b/d/g` and `/a/f` to `/b/f`, and removes `/a/d`, then `/a`. -/
theorem azsRenameDirectory_inTrees_nested :
    let localDir : String → Option (List DirEntry) := fun p =>
      if p = "/a/" then some [⟨"d", true⟩, ⟨"f", false⟩]
      else if p = "/a/d/" then some [⟨"g", false⟩] else none
    let script : List Reply := [.property ⟨404, {}⟩, .property ⟨404, {}⟩, .renamed 0 0,
      .list ⟨0, [], ""⟩, .renamed 0 0, .list ⟨0, [], ""⟩]
    let calls : List RenameCall := [.renameSingleFile "/a/d/g" "/b/d/g", .rmdir "/a/d",
      .renameSingleFile "/a/f" "/b/f", .rmdir "/a"]
    (∀ p es, localDir p = some es → ∀ e ∈ es, e.name ≠ "") ∧ "/a" ≠ "" ∧ "/b" ≠ "" ∧
    azsRenameDirectory [] localDir 2 "/a" "/b" ⟨script, []⟩ = some (0, ⟨[], calls⟩) ∧
    AddsCalls (InTrees "/a" "/b") ⟨script, []⟩ ⟨[], calls⟩ := by
  intro localDir script calls
  have hnames : ∀ p es, localDir p = some es → ∀ e ∈ es, e.name ≠ "" := by
    intro p es h e he
    simp only [localDir] at h
    split_ifs at h <;> cases h <;> simp only [List.mem_cons, List.mem_singleton,
      List.not_mem_nil, or_false] at he <;> rcases he with rfl | rfl <;> decide
  have hrun : azsRenameDirectory [] localDir 2 "/a" "/b" ⟨script, []⟩ = some (0, ⟨[], calls⟩) := by
    decide
  exact ⟨hnames, by decide, by decide, hrun,
    azsRenameDirectory_inTrees [] localDir hnames 2 "/a" "/b" _ 0 _ (by decide) (by decide) hrun⟩

end BlobFuse
