import Waverous.StrSearch

/-! # Paths of files — `extension-fileio.c`

    The built-in functions on files name them by paths below the directory `files/`.  A path is
    refused by tests on its text, while the system takes it component by component: what is not
    refused has no `..` among its components, so that the way it leads never leaves the directory. -/

namespace Waverous

/-- `FILE_SUBDIR`. -/
def fileSubdir : Str := Str.ofString "files/"

/-- `file_verify_path`. -/
def fileVerifyPath (pathname : Str) : Bool :=
  if pathname = [] then true
  else if 1 < pathname.length ∧ pathname[0]? = some 46 ∧ pathname[1]? = some 46 then false
  else if strindex false pathname (Str.ofString "/.") ≠ 0 then false
  else true

/-- `file_resolve_path`; `none` is the null pointer. -/
def fileResolvePath (pathname : Str) : Option Str :=
  if fileVerifyPath pathname then
    some (fileSubdir ++ if pathname.head? = some 47 then pathname.tail else pathname)
  else none

/-! ## What a path means -/

/-- The components of a path, between its slashes. -/
def components : Str → List Str
  | [] => [[]]
  | c :: path =>
      if c = 47 then [] :: components path
      else
        match components path with
        | [] => [[c]]
        | first :: rest => (c :: first) :: rest

/-- `..`. -/
def dotDot : Str := [46, 46]

/-- The directories that one is in after some components, the innermost one first; `none` if they
    lead above the directory where one has started. -/
def walk : List Str → List Str → Option (List Str)
  | dirs, [] => some dirs
  | dirs, c :: path =>
      if c = [] ∨ c = [46] then walk dirs path
      else if c = dotDot then
        match dirs with
        | [] => none
        | _ :: dirs => walk dirs path
      else walk (c :: dirs) path

/-- From its first component on, a path leads to what is in `files` all the way. -/
def StaysBelow (path : Str) : Prop :=
  ∀ k, ∃ dirs, walk [] ((components path).take (k + 1)) = some (dirs ++ [Str.ofString "files"])

/-! ## The built-in functions -/

/-- The name of an entry of a directory, as `readdir` gives it. -/
structure DirEntry where
  name : Str
  noSlash : 47 ∉ name

/-- A call of a built-in function with a path: `stat` is for those that use `file_stat`, and `list`
    has the entries of the directory that are read. -/
inductive PathCall where
  | «open» (filename : Str)
  | stat (filename : Str)
  | list (pathspec : Str) (detailed : Bool) (entries : List DirEntry)
  | mkdir (pathspec : Str)
  | rmdir (pathspec : Str)
  | remove (pathspec : Str)
  | rename (fromspec tospec : Str)
  | chmod (pathspec modespec : Str)

/-- The paths of entries that `bf_file_list` calls `stat` for. -/
def entryPaths (realPathname : Str) (entries : List DirEntry) : List Str :=
  (entries.filter fun e => e.name ≠ [46] ∧ e.name ≠ dotDot).map fun e => realPathname ++ 47 :: e.name

/-- `file_chmodstr_to_mode`, if it succeeds. -/
def chmodstrOk (modespec : Str) : Bool :=
  modespec.length = 3 ∧ modespec.all fun c => decide (48 ≤ c ∧ c ≤ 55)

/-- The paths that a call gives to the system if nothing else fails.  `str_dup` makes
    an empty string of the null pointer, so that a first path that is refused does not keep
    `bf_file_rename` from its call of `rename`. -/
def PathCall.paths (wizard : Bool) : PathCall → List Str
  | .open filename | .stat filename => if wizard then (fileResolvePath filename).toList else []
  | .list pathspec detailed entries =>
      if wizard then
        match fileResolvePath pathspec with
        | none => []
        | some path => path :: if detailed then entryPaths path entries else []
      else []
  | .mkdir pathspec | .rmdir pathspec | .remove pathspec =>
      if wizard then (fileResolvePath pathspec).toList else []
  | .rename fromspec tospec =>
      if wizard then
        match fileResolvePath tospec with
        | none => []
        | some path => [(fileResolvePath fromspec).getD [], path]
      else []
  | .chmod pathspec modespec =>
      if wizard ∧ chmodstrOk modespec then (fileResolvePath pathspec).toList else []

/-! ## Components -/

theorem components_cons {c : UInt8} (hc : c ≠ 47) (path : Str) :
    ∃ first rest, components path = first :: rest ∧ components (c :: path) = (c :: first) :: rest := by
  have hne : components path ≠ [] := by
    cases path with
    | nil => exact nofun
    | cons d path =>
        rw [components]
        split
        · exact nofun
        · split
          · exact nofun
          · exact nofun
  obtain ⟨first, rest, hpath⟩ := List.exists_cons_of_ne_nil hne
  refine ⟨first, rest, hpath, ?_⟩
  rw [components, if_neg hc, hpath]

@[simp] theorem components_slash_cons (path : Str) : components (47 :: path) = [] :: components path :=
  if_pos rfl

theorem components_slash {dir : Str} (hdir : 47 ∉ dir) (path : Str) :
    components (dir ++ 47 :: path) = dir :: components path := by
  induction dir with
  | nil =>
      exact components_slash_cons path
  | cons c dir ih =>
      have hc : c ≠ 47 := fun h => hdir (h ▸ List.mem_cons_self)
      obtain ⟨first, rest, hpath, hcons⟩ := components_cons hc (dir ++ 47 :: path)
      rw [ih fun h => hdir (List.mem_cons_of_mem c h)] at hpath
      obtain ⟨rfl, rfl⟩ := List.cons.inj hpath
      exact hcons

theorem components_entry {name : Str} (hname : 47 ∉ name) : components name = [name] := by
  induction name with
  | nil => rfl
  | cons c name ih =>
      have hc : c ≠ 47 := fun h => hname (h ▸ List.mem_cons_self)
      have hrest := ih fun h => hname (List.mem_cons_of_mem c h)
      rw [components, if_neg hc, hrest]

theorem components_append_entry {name : Str} (hname : 47 ∉ name) (path : Str) :
    components (path ++ 47 :: name) = components path ++ [name] := by
  induction path with
  | nil =>
      show components (47 :: name) = _
      rw [components_slash_cons, components_entry hname]
      rfl
  | cons c path ih =>
      by_cases hc : c = 47
      · subst hc
        show components (47 :: (path ++ 47 :: name)) = _
        rw [components_slash_cons, ih, components_slash_cons]
        rfl
      · obtain ⟨first, rest, hpath, hcons⟩ := components_cons hc path
        show components (c :: (path ++ 47 :: name)) = _
        rw [components, if_neg hc, ih, hpath, hcons]
        rfl

/-- The first component begins the path, and each other one is behind a slash. -/
theorem components_at (path : Str) : ∃ first rest, components path = first :: rest ∧
    first <+: path ∧ ∀ c ∈ rest, ∃ before, before ++ 47 :: c <+: path := by
  induction path with
  | nil => exact ⟨[], [], rfl, List.prefix_rfl, nofun⟩
  | cons d path ih =>
      obtain ⟨first, rest, hpath, hfirst, hrest⟩ := ih
      have hbehind : ∀ c ∈ rest, ∃ before, before ++ 47 :: c <+: d :: path := by
        intro c hc
        obtain ⟨before, hbefore⟩ := hrest c hc
        exact ⟨d :: before, List.cons_prefix_cons.mpr ⟨rfl, hbefore⟩⟩
      by_cases hd : d = 47
      · subst hd
        refine ⟨[], components path, components_slash_cons path, List.nil_prefix, fun c hc => ?_⟩
        rw [hpath, List.mem_cons] at hc
        rcases hc with rfl | hc
        · exact ⟨[], List.cons_prefix_cons.mpr ⟨rfl, hfirst⟩⟩
        · exact hbehind c hc
      · refine ⟨d :: first, rest, ?_, List.cons_prefix_cons.mpr ⟨rfl, hfirst⟩, hbehind⟩
        rw [components, if_neg hd, hpath]

/-! ## What is not refused -/

/-- Neither begins an accepted path with `..`, nor is there a `/.` in it. -/
theorem fileVerifyPath_spec {pathname : Str} (h : fileVerifyPath pathname = true) :
    ¬ dotDot <+: pathname ∧ ∀ before, ¬ before ++ [47, 46] <+: pathname := by
  unfold fileVerifyPath at h
  split at h
  next hnil =>
    subst hnil
    refine ⟨by simp [dotDot], fun before hpre => ?_⟩
    have hle := hpre.length_le
    rw [List.length_append] at hle
    exact absurd hle (by simp)
  next =>
    split at h
    next => cases h
    next hdots =>
      split at h
      next => cases h
      next hindex =>
        constructor
        · rintro ⟨rest, rfl⟩
          exact hdots ⟨by simp [dotDot], rfl, rfl⟩
        · rintro before ⟨rest, rfl⟩
          rw [ne_eq, not_not] at hindex
          rcases strindex_spec false (before ++ [47, 46] ++ rest) (Str.ofString "/.") with
            ⟨-, hnone⟩ | ⟨hocc, -⟩
          · refine hnone (before.length + 1) ⟨by omega, by simp, ?_⟩
            rw [Nat.add_sub_cancel, List.append_assoc, List.drop_left, List.map_append]
            exact List.prefix_append _ _
          · rw [hindex] at hocc
            exact absurd hocc.1 (by omega)

/-- No component of what is accepted is `..`, and none is behind a leading slash. -/
theorem accepted_components {pathname : Str} (h : fileVerifyPath pathname = true) :
    dotDot ∉ components (if pathname.head? = some 47 then pathname.tail else pathname) := by
  obtain ⟨hdots, hslash⟩ := fileVerifyPath_spec h
  have hbehind : ∀ before, ¬ before ++ 47 :: dotDot <+: pathname := by
    intro before hpre
    refine hslash before (List.IsPrefix.trans ⟨[46], ?_⟩ hpre)
    rw [List.append_assoc]
    rfl
  split
  next hhead =>
    cases pathname with
    | nil => exact nomatch hhead
    | cons c rest =>
        obtain rfl : c = 47 := Option.some.inj hhead
        obtain ⟨first, rest', hpath, hfirst, hrest⟩ := components_at rest
        rw [List.tail_cons, hpath, List.mem_cons]
        rintro (rfl | hmem)
        · exact hbehind [] (List.cons_prefix_cons.mpr ⟨rfl, hfirst⟩)
        · obtain ⟨before, hbefore⟩ := hrest _ hmem
          exact hbehind (47 :: before) (List.cons_prefix_cons.mpr ⟨rfl, hbefore⟩)
  next =>
    obtain ⟨first, rest', hpath, hfirst, hrest⟩ := components_at pathname
    rw [hpath, List.mem_cons]
    rintro (rfl | hmem)
    · exact hdots hfirst
    · obtain ⟨before, hbefore⟩ := hrest _ hmem
      exact hbehind before hbefore

/-! ## Staying below -/

theorem walk_below {dirs path : List Str} (hpath : dotDot ∉ path) :
    ∃ dirs', walk dirs path = some (dirs' ++ dirs) := by
  induction path generalizing dirs with
  | nil => exact ⟨[], rfl⟩
  | cons c path ih =>
      have hrest : dotDot ∉ path := fun h => hpath (List.mem_cons_of_mem c h)
      have hc : c ≠ dotDot := fun h => hpath (h ▸ List.mem_cons_self)
      unfold walk
      split
      · exact ih hrest
      · obtain ⟨dirs', hwalk⟩ : ∃ dirs', walk (c :: dirs) path = some (dirs' ++ c :: dirs) := ih hrest
        refine ⟨dirs' ++ [c], ?_⟩
        rw [hwalk, List.append_assoc]
        rfl

theorem staysBelow_of_components {path : Str} {rest : List Str}
    (hpath : components path = Str.ofString "files" :: rest) (hdots : dotDot ∉ components path) :
    StaysBelow path := by
  intro k
  rw [hpath] at hdots ⊢
  have htake : dotDot ∉ rest.take k := fun h => hdots (List.mem_cons_of_mem _ (List.mem_of_mem_take h))
  have hwalk : ∃ dirs, walk [Str.ofString "files"] (rest.take k) =
      some (dirs ++ [Str.ofString "files"]) := walk_below htake
  exact hwalk

theorem fileResolvePath_components {pathname path : Str} (h : fileResolvePath pathname = some path) :
    ∃ rest, components path = Str.ofString "files" :: rest ∧ dotDot ∉ components path := by
  unfold fileResolvePath at h
  split at h
  next hverify =>
    cases h
    have hsubdir : components (fileSubdir ++
        if pathname.head? = some 47 then pathname.tail else pathname) = _ :: _ :=
      components_slash (show 47 ∉ Str.ofString "files" by decide) _
    refine ⟨_, hsubdir, ?_⟩
    rw [hsubdir, List.mem_cons]
    rintro (heq | hmem)
    · exact absurd heq (by decide)
    · exact accepted_components hverify hmem
  next => exact nomatch h

theorem fileResolvePath_staysBelow {pathname path : Str} (h : fileResolvePath pathname = some path) :
    StaysBelow path := by
  obtain ⟨rest, hpath, hdots⟩ := fileResolvePath_components h
  exact staysBelow_of_components hpath hdots

/-- An entry of a directory in `files` is in `files`. -/
theorem entryPaths_staysBelow {pathname path : Str} (h : fileResolvePath pathname = some path)
    {entries : List DirEntry} {p : Str} (hp : p ∈ entryPaths path entries) : StaysBelow p := by
  obtain ⟨rest, hpath, hdots⟩ := fileResolvePath_components h
  obtain ⟨e, he, rfl⟩ := List.mem_map.mp hp
  have hname := of_decide_eq_true (List.mem_filter.mp he).2
  have hcomponents := components_append_entry e.noSlash path
  refine staysBelow_of_components (?_ : components _ = Str.ofString "files" :: (rest ++ [e.name])) ?_
  · rw [hcomponents, hpath]
    rfl
  · rw [hcomponents, List.mem_append, List.mem_singleton]
    rintro (hmem | heq)
    · exact hdots hmem
    · exact hname.2 heq.symm

/-- What is accepted is resolved to a path without a component `..`, and every path that a built-in
    function gives to the system stays in `files`, or is empty and names nothing. -/
theorem file_paths_confined :
    (∀ pathname, fileVerifyPath pathname = true →
      ∃ path, fileResolvePath pathname = some path ∧ dotDot ∉ components path) ∧
    ∀ (wizard : Bool) (call : PathCall), ∀ path ∈ call.paths wizard, path = [] ∨ StaysBelow path := by
  refine ⟨fun pathname hverify => ?_, fun wizard call path hpath => ?_⟩
  · have hresolve : fileResolvePath pathname = some _ := if_pos hverify
    obtain ⟨rest, -, hdots⟩ := fileResolvePath_components hresolve
    exact ⟨_, hresolve, hdots⟩
  · have hresolved : ∀ {pathname}, path ∈ (fileResolvePath pathname).toList → StaysBelow path :=
      fun h => fileResolvePath_staysBelow (Option.mem_toList.mp h)
    cases call <;> simp only [PathCall.paths] at hpath <;> split at hpath <;>
      try exact absurd hpath List.not_mem_nil
    case list.isTrue =>
      split at hpath
      next => exact absurd hpath List.not_mem_nil
      next real hreal =>
        rcases List.mem_cons.mp hpath with rfl | hentry
        · exact .inr (fileResolvePath_staysBelow hreal)
        · split at hentry
          next => exact .inr (entryPaths_staysBelow hreal hentry)
          next => exact absurd hentry List.not_mem_nil
    case rename.isTrue fromspec tospec _ =>
      split at hpath
      next => exact absurd hpath List.not_mem_nil
      next real hreal =>
        rcases List.mem_cons.mp hpath with rfl | hto
        · cases hfrom : fileResolvePath fromspec with
          | none => exact .inl rfl
          | some path => exact .inr (fileResolvePath_staysBelow hfrom)
        · obtain rfl := List.mem_singleton.mp hto
          exact .inr (fileResolvePath_staysBelow hreal)
    all_goals exact .inr (hresolved hpath)

example : fileResolvePath (Str.ofString "/a/b") = some (Str.ofString "files/a/b") ∧
    fileResolvePath (Str.ofString "a/../b") = none ∧ fileResolvePath (Str.ofString "..") = none := by
  decide

end Waverous
