import Mathlib.Algebra.GroupWithZero.Nat
import Mathlib.Data.List.Perm.Subperm
import Rullama.Transition.Machine

/-! # The file explorer

A popup over a directory tree that does not change meanwhile. It shows the entries of one
directory, or those that a search leaves, and may go to directories below the home directory and
a few others. Entering a directory moves there first and reads it afterwards.
-/
namespace Rullama.Explorer

open Rullama.Transition (Machine)

abbrev Name := List Char

/-- The components of a path. The root is the component `/` in front of an absolute one. -/
abbrev Path := List Name

inductive FileExplorerMode
  | browser
  | search
  deriving DecidableEq

inductive EntryType
  | directory
  | file (size : ℕ) (extension : Option Name)
  | symlink (target : Path)
  | parentDir
  deriving DecidableEq

structure FileEntry where
  name : Name
  path : Path
  entryType : EntryType
  deriving DecidableEq

inductive Metadata
  | dir
  | symlink (target : Option Path)
  | other (len : ℕ)
  deriving DecidableEq

/-- What is read of an entry of a directory. -/
structure DirEntry where
  fileName : Name
  metadata : Option Metadata
  deriving DecidableEq

/-- A directory tree with its links. A directory that cannot be read has no list. -/
structure Tree where
  canonicalize : Path → Option Path
  isDir : Path → Bool
  readDir : Path → Option (List DirEntry)
  homeDir : Option Path
  canonicalize_canonicalize : ∀ path canonical, canonical ∈ canonicalize path →
    canonical ∈ canonicalize canonical

def root : Path := [['/']]

def Tree.rootJail (tree : Tree) : Path := tree.homeDir.getD root

structure FileExplorerState where
  currentDir : Path
  entries : List FileEntry := []
  cursorIndex : ℕ := 0
  scroll : ℕ := 0
  selectedFiles : List Path := []
  mode : FileExplorerMode := .browser
  searchQuery : Name := []
  filteredIndices : Option (List ℕ) := none
  error : Option String := none
  showHidden : Bool := false
  history : List Path := []
  deriving DecidableEq

def allowedReadonlyPaths : List Path :=
  [["/".toList,"etc".toList],["/".toList,"usr".toList,"share".toList],["/".toList,"opt".toList],
    ["/".toList,"tmp".toList]]

/-- `is_allowed_path_static` -/
def isAllowedPath (path home : Path) : Bool :=
  home.isPrefixOf path || allowedReadonlyPaths.any (fun allowed => allowed.isPrefixOf path)

/-- `Path::parent` -/
def parent (path : Path) : Option Path :=
  match path.getLast? with
  | none => none
  | some last => if last = ['/'] then none else some path.dropLast

def display (path : Path) : String :=
  match path with
  | ['/'] :: rest => .ofList ('/' :: ['/'].intercalate rest)
  | rest => .ofList (['/'].intercalate rest)

/-- `Path::extension` of a file name -/
def extension (name : Name) : Option Name :=
  let before := (name.reverse.dropWhile (· ≠ '.')).tail
  if before = [] then none else some (name.reverse.takeWhile (· ≠ '.')).reverse

/-- The order of strings, by their characters. -/
def nameLe : Name → Name → Bool
  | [],_ => true
  | _ :: _,[] => false
  | a :: as,b :: bs => a.toNat < b.toNat || a = b && nameLe as bs

/-- `contains` of a pattern -/
def containsName (s query : Name) : Bool := s.tails.any (query.isPrefixOf ·)

variable (tree : Tree) (toLowercase : Name → Name)

def isWithinJail (path : Path) : Bool :=
  match tree.canonicalize path with
  | some canonical => isAllowedPath canonical tree.rootJail
  | none => false

def parentEntry (dir : Path) : List FileEntry :=
  match parent dir with
  | some up => if isWithinJail tree up then [⟨"..".toList,up,.parentDir⟩] else []
  | none => []

def DirEntry.entryType (entry : DirEntry) : EntryType :=
  match entry.metadata with
  | some .dir => .directory
  | some (.symlink target) => .symlink (target.getD [])
  | some (.other len) => .file len (extension entry.fileName)
  | none => .file 0 none

/-- The entries of a directory that was read: directories first, each kind by name. -/
def dirEntries (dir : Path) (showHidden : Bool) (list : List DirEntry) : List FileEntry :=
  let shown := list.filter (fun entry => showHidden || entry.fileName.head? ≠ some '.')
  let all := shown.map (fun entry => ⟨entry.fileName,dir ++ [entry.fileName],entry.entryType⟩)
  let sorted := fun (l : List FileEntry) =>
    l.mergeSort (fun a b => nameLe (toLowercase a.name) (toLowercase b.name))
  sorted (all.filter (fun e => e.entryType = .directory)) ++
    sorted (all.filter (fun e => e.entryType ≠ .directory))

namespace FileExplorerState
variable (s : FileExplorerState)

def refresh : FileExplorerState × Except String Unit :=
  let s := { s with entries := parentEntry tree s.currentDir, error := none }
  match tree.readDir s.currentDir with
  | none => (s,.error ("Failed to read directory: " ++ display s.currentDir))
  | some list =>
    let entries := s.entries ++ dirEntries toLowercase s.currentDir s.showHidden list
    let cursorIndex := if s.cursorIndex ≥ entries.length then entries.length - 1 else s.cursorIndex
    ({ s with entries, cursorIndex, filteredIndices := none, searchQuery := [] },.ok ())

/-- `new` -/
def opened (startDir : Path) : FileExplorerState :=
  let canonicalStart := (tree.canonicalize startDir).getD tree.rootJail
  let currentDir :=
    if isAllowedPath canonicalStart tree.rootJail then canonicalStart else tree.rootJail
  (refresh tree toLowercase { currentDir }).1

/-- A move to another directory, which is read afterwards. -/
def moveTo (dir : Path) : FileExplorerState :=
  { s with currentDir := dir, cursorIndex := 0, scroll := 0 }

def enterDirectory (path : Path) : FileExplorerState × Except String Unit :=
  match tree.canonicalize path with
  | none => (s,.error ("Cannot access directory: " ++ display path))
  | some canonical =>
    if !isAllowedPath canonical tree.rootJail then
      ({ s with error := some "Cannot navigate to this location" },.ok ())
    else if !tree.isDir canonical then
      ({ s with error := some "Path is not a directory" },.ok ())
    else refresh tree toLowercase
      ({ s with history := s.history ++ [s.currentDir] }.moveTo canonical)

def goUp : FileExplorerState × Except String Unit :=
  match parent s.currentDir with
  | none => (s,.ok ())
  | some up =>
    if !isWithinJail tree up then
      ({ s with error := some "Cannot navigate to parent directory" },.ok ())
    else refresh tree toLowercase ({ s with history := s.history ++ [s.currentDir] }.moveTo up)

def goBack : FileExplorerState :=
  match s.history.getLast? with
  | none => s
  | some prevDir =>
    let s := { s with history := s.history.dropLast }
    if isWithinJail tree prevDir then (refresh tree toLowercase (s.moveTo prevDir)).1
    else { s with error := some "Cannot navigate to previous directory" }

def effectiveCursorIndex : ℕ :=
  match s.filteredIndices with
  | some indices => (indices[s.cursorIndex]?).getD 0
  | none => s.cursorIndex

def currentEntry : Option FileEntry := s.entries[s.effectiveCursorIndex]?

def FileEntry.isFile (entry : FileEntry) : Bool :=
  match entry.entryType with
  | .file _ _ => true
  | _ => false

def insertPath (files : List Path) (path : Path) : List Path :=
  if path ∈ files then files else files ++ [path]

def toggleSelection : FileExplorerState :=
  match s.currentEntry with
  | none => s
  | some entry =>
    if FileEntry.isFile entry then
      if entry.path ∈ s.selectedFiles then
        { s with selectedFiles := s.selectedFiles.filter (· ≠ entry.path) }
      else { s with selectedFiles := insertPath s.selectedFiles entry.path }
    else s

def visibleCount : ℕ :=
  match s.filteredIndices with
  | some indices => indices.length
  | none => s.entries.length

def startSearch : FileExplorerState :=
  { s with mode := .search, searchQuery := [], filteredIndices := none }

def exitSearch : FileExplorerState :=
  { s with mode := .browser, searchQuery := [], filteredIndices := none }

/-- The entries whose name contains the query. -/
def found (query : Name) : List ℕ :=
  (List.range s.entries.length).filter (fun i => (s.entries[i]?).any
    (fun entry => containsName (toLowercase entry.name) (toLowercase query)))

def updateSearch (query : Name) : FileExplorerState :=
  if query = [] then { s with searchQuery := query, filteredIndices := none, cursorIndex := 0 }
  else
    { s with searchQuery := query, filteredIndices := some (s.found toLowercase query),
             cursorIndex := 0 }

def selectAllFiles : FileExplorerState :=
  { s with selectedFiles :=
      ((s.entries.filter FileEntry.isFile).map FileEntry.path).foldl insertPath s.selectedFiles }

def clearSelection : FileExplorerState := { s with selectedFiles := [] }

def toggleHidden : FileExplorerState :=
  (refresh tree toLowercase { s with showHidden := !s.showHidden }).1

/-- The cursor is kept in an area of 20 lines, in 16 bits. -/
def adjustScroll : FileExplorerState :=
  let cursor := s.cursorIndex % 2^16
  if cursor < s.scroll then { s with scroll := cursor }
  else if cursor ≥ (s.scroll + 20) % 2^16 then { s with scroll := cursor - 19 }
  else s

def cursorUp : FileExplorerState := adjustScroll { s with cursorIndex := s.cursorIndex - 1 }

def cursorDown : FileExplorerState :=
  adjustScroll
    (if s.cursorIndex < s.visibleCount - 1 then { s with cursorIndex := s.cursorIndex + 1 } else s)

def pageUp (pageSize : ℕ) : FileExplorerState :=
  adjustScroll { s with cursorIndex := s.cursorIndex - pageSize }

def pageDown (pageSize : ℕ) : FileExplorerState :=
  adjustScroll { s with cursorIndex := min (s.cursorIndex + pageSize) (s.visibleCount - 1) }

end FileExplorerState

inductive Action
  | enterDirectory (path : Path)
  | goUp
  | goBack
  | toggleSelection
  | startSearch
  | exitSearch
  | updateSearch (query : Name)
  | selectAllFiles
  | clearSelection
  | toggleHidden
  | cursorUp
  | cursorDown
  | pageUp (pageSize : ℕ)
  | pageDown (pageSize : ℕ)

/-- An operation, which may give an error. -/
def FileExplorerState.perform (s : FileExplorerState) :
    Action → FileExplorerState × Except String Unit
  | .enterDirectory path => s.enterDirectory tree toLowercase path
  | .goUp => s.goUp tree toLowercase
  | .goBack => (s.goBack tree toLowercase,.ok ())
  | .toggleSelection => (s.toggleSelection,.ok ())
  | .startSearch => (s.startSearch,.ok ())
  | .exitSearch => (s.exitSearch,.ok ())
  | .updateSearch query => (s.updateSearch toLowercase query,.ok ())
  | .selectAllFiles => (s.selectAllFiles,.ok ())
  | .clearSelection => (s.clearSelection,.ok ())
  | .toggleHidden => (s.toggleHidden tree toLowercase,.ok ())
  | .cursorUp => (s.cursorUp,.ok ())
  | .cursorDown => (s.cursorDown,.ok ())
  | .pageUp pageSize => (s.pageUp pageSize,.ok ())
  | .pageDown pageSize => (s.pageDown pageSize,.ok ())

def explorer : Machine FileExplorerState Action where
  enabled _ _ := True
  next s a := (s.perform tree toLowercase a).1

/-! ## What holds of the explorer -/

/-- The entries that are shown. -/
def FileExplorerState.visible (s : FileExplorerState) : List FileEntry :=
  match s.filteredIndices with
  | some indices => indices.filterMap (s.entries[·]?)
  | none => s.entries

/-- The home directory with its links resolved counts as the home directory. -/
def Inside (canonical : Path) : Prop :=
  isAllowedPath canonical tree.rootJail = true ∨
    ∃ home ∈ tree.canonicalize tree.rootJail, home <+: canonical

/-- The current directory resolves to an allowed place, if the home directory resolves. -/
structure Jailed (s : FileExplorerState) : Prop where
  resolves : (tree.canonicalize tree.rootJail).isSome → (tree.canonicalize s.currentDir).isSome
  inside : ∀ canonical ∈ tree.canonicalize s.currentDir, Inside tree canonical

/-- The current entry is the one that is shown under the cursor. -/
structure Shows (s : FileExplorerState) : Prop where
  indices : ∀ indices ∈ s.filteredIndices, ∀ i ∈ indices, i < s.entries.length
  current : s.currentEntry = s.visible[s.cursorIndex]?
  cursor : s.visible ≠ [] → s.cursorIndex < s.visible.length

def Action.Moves : Action → Prop
  | .enterDirectory _ | .goUp => True
  | _ => False

def Fails (s : FileExplorerState) (a : Action) : Prop :=
  (s.perform tree toLowercase a).2 ≠ .ok () ∨ (s.perform tree toLowercase a).1.error.isSome

structure Lawful (s : FileExplorerState) (a : Action) : Prop where
  unchanged : a.Moves → Fails tree toLowercase s a →
    (s.perform tree toLowercase a).1.currentDir = s.currentDir ∧
      (s.perform tree toLowercase a).1.entries = s.entries ∧
      (s.perform tree toLowercase a).1.history = s.history
  shows : Shows (s.perform tree toLowercase a).1
  selects : ∀ path ∈ s.toggleSelection.selectedFiles, path ∉ s.selectedFiles →
    ∃ entry ∈ s.visible, entry.path = path

/-- A filter that leaves some of so many entries, if there are any. -/
def Fits (filter : Option (List ℕ)) (count : ℕ) : Prop :=
  ∀ indices ∈ filter, (∀ i ∈ indices, i < count) ∧ (indices = [] → count = 0)

/-- A directory that is gone to can be read, or is gone back to where the filter fits what is
shown of it, and a search finds something if there is anything. -/
def Smooth (s : FileExplorerState) : Action → Prop
  | .enterDirectory path => ∀ canonical ∈ tree.canonicalize path,
      isAllowedPath canonical tree.rootJail = true → tree.isDir canonical = true →
        (tree.readDir canonical).isSome
  | .goUp => ∀ up ∈ parent s.currentDir, isWithinJail tree up = true → (tree.readDir up).isSome
  | .goBack => ∀ prevDir ∈ s.history.getLast?, isWithinJail tree prevDir = true →
      (tree.readDir prevDir).isSome ∨ Fits s.filteredIndices (parentEntry tree prevDir).length
  | .updateSearch query => query ≠ [] → s.found toLowercase query = [] → s.entries = []
  | _ => True

/-- All entries of a directory, as a refresh lists them. -/
def listing (dir : Path) (showHidden : Bool) : List FileEntry :=
  parentEntry tree dir ++
    ((tree.readDir dir).map (dirEntries toLowercase dir showHidden)).getD []

/-- What all operations keep. -/
structure Steady (s : FileExplorerState) : Prop where
  entries : s.entries = listing tree toLowercase s.currentDir s.showHidden
  fits : Fits s.filteredIndices s.entries.length
  nodup : ∀ indices ∈ s.filteredIndices, indices.Nodup
  cursor : s.visibleCount ≠ 0 → s.cursorIndex < s.visibleCount

namespace FileExplorerState

variable {tree toLowercase} {s : FileExplorerState} {a : Action}

theorem refresh_of_some {list : List DirEntry} (h : tree.readDir s.currentDir = some list) :
    s.refresh tree toLowercase =
      ({ s with entries := listing tree toLowercase s.currentDir s.showHidden, error := none,
                cursorIndex := if s.cursorIndex ≥
                    (listing tree toLowercase s.currentDir s.showHidden).length then
                  (listing tree toLowercase s.currentDir s.showHidden).length - 1
                  else s.cursorIndex,
                filteredIndices := none, searchQuery := [] },.ok ()) := by
  simp only [refresh,h,listing,Option.map_some,Option.getD_some]

theorem refresh_of_none (h : tree.readDir s.currentDir = none) :
    s.refresh tree toLowercase =
      ({ s with entries := listing tree toLowercase s.currentDir s.showHidden, error := none },
        .error ("Failed to read directory: " ++ display s.currentDir)) := by
  simp only [refresh,h,listing,Option.map_none,Option.getD_none,List.append_nil]

end FileExplorerState

open FileExplorerState
variable {tree toLowercase} {s : FileExplorerState} {a : Action}

/-! ### The jail -/

theorem currentDir_refresh : (s.refresh tree toLowercase).1.currentDir = s.currentDir := by
  cases h : tree.readDir s.currentDir with
  | none => rw [refresh_of_none h]
  | some list => rw [refresh_of_some h]

theorem currentDir_adjustScroll : s.adjustScroll.currentDir = s.currentDir := by
  rw [adjustScroll]
  split
  · rfl
  · split <;> rfl

variable (tree toLowercase s a) in
/-- An operation stays where it is or goes to a place that was checked. -/
theorem currentDir_perform : (s.perform tree toLowercase a).1.currentDir = s.currentDir ∨
    ∃ canonical ∈ tree.canonicalize (s.perform tree toLowercase a).1.currentDir,
      isAllowedPath canonical tree.rootJail = true := by
  have hwithin {path : Path} (h : isWithinJail tree path = true) :
      ∃ canonical ∈ tree.canonicalize path, isAllowedPath canonical tree.rootJail = true := by
    rw [isWithinJail] at h
    split at h
    · rename_i canonical hcanonical
      exact ⟨canonical,hcanonical,h⟩
    · cases h
  cases a with
  | enterDirectory path =>
    rw [perform,enterDirectory]
    split
    · exact .inl rfl
    · rename_i canonical hcanonical
      split
      · exact .inl rfl
      · rename_i hallowed
        split
        · exact .inl rfl
        · rw [currentDir_refresh]
          refine .inr ⟨canonical,tree.canonicalize_canonicalize path canonical hcanonical,?_⟩
          simpa using hallowed
  | goUp =>
    rw [perform,goUp]
    split
    · exact .inl rfl
    · split
      · exact .inl rfl
      · rename_i hjail
        rw [currentDir_refresh]
        rw [Bool.not_eq_true,Bool.not_eq_false'] at hjail
        exact .inr (hwithin hjail)
  | goBack =>
    simp only [perform,goBack]
    split
    · exact .inl rfl
    · split
      · rename_i hjail
        rw [currentDir_refresh]
        exact .inr (hwithin hjail)
      · exact .inl rfl
  | toggleSelection =>
    simp only [perform,toggleSelection]
    split
    · exact .inl rfl
    · split
      · split <;> exact .inl rfl
      · exact .inl rfl
  | updateSearch query =>
    simp only [perform,updateSearch]
    split <;> exact .inl rfl
  | toggleHidden => exact .inl currentDir_refresh
  | cursorUp => exact .inl currentDir_adjustScroll
  | cursorDown =>
    refine .inl (currentDir_adjustScroll.trans ?_)
    split <;> rfl
  | pageUp pageSize => exact .inl currentDir_adjustScroll
  | pageDown pageSize => exact .inl currentDir_adjustScroll
  | startSearch => exact .inl rfl
  | exitSearch => exact .inl rfl
  | selectAllFiles => exact .inl rfl
  | clearSelection => exact .inl rfl

theorem jailed_of_allowed {canonical : Path} (h : canonical ∈ tree.canonicalize s.currentDir)
    (hallowed : isAllowedPath canonical tree.rootJail = true) : Jailed tree s := by
  rw [Option.mem_def] at h
  refine ⟨fun _ => by rw [h]; rfl,fun other hother => .inl ?_⟩
  rw [Option.mem_def,h,Option.some.injEq] at hother
  exact hother ▸ hallowed

theorem jailed_perform (h : Jailed tree s) : Jailed tree (s.perform tree toLowercase a).1 := by
  rcases currentDir_perform tree toLowercase s a with hsame | ⟨canonical,hcanonical,hallowed⟩
  · exact ⟨by rw [hsame]; exact h.resolves,by rw [hsame]; exact h.inside⟩
  · exact jailed_of_allowed hcanonical hallowed

theorem jailed_of_rootJail (h : s.currentDir = tree.rootJail) : Jailed tree s := by
  refine ⟨fun hhome => by rw [h]; exact hhome,fun canonical hcanonical => ?_⟩
  rw [h] at hcanonical
  exact .inr ⟨canonical,hcanonical,List.prefix_rfl⟩

theorem jailed_opened (startDir : Path) : Jailed tree (opened tree toLowercase startDir) := by
  have hdir : (opened tree toLowercase startDir).currentDir =
      if isAllowedPath ((tree.canonicalize startDir).getD tree.rootJail) tree.rootJail then
        (tree.canonicalize startDir).getD tree.rootJail else tree.rootJail := currentDir_refresh
  cases hstart : tree.canonicalize startDir with
  | none =>
    rw [hstart,Option.getD_none,ite_self] at hdir
    exact jailed_of_rootJail hdir
  | some canonical =>
    rw [hstart,Option.getD_some] at hdir
    split at hdir
    · rename_i hallowed
      refine jailed_of_allowed ?_ hallowed
      rw [hdir]
      exact tree.canonicalize_canonicalize startDir canonical hstart
    · exact jailed_of_rootJail hdir

/-! ### The entries that are shown -/

theorem getElem?_filterMap_getElem? {α : Type*} {l : List α} {indices : List ℕ}
    (h : ∀ i ∈ indices, i < l.length) (k : ℕ) :
    (indices.filterMap (l[·]?))[k]? = (indices[k]?).bind (l[·]?) := by
  induction indices generalizing k with
  | nil => rfl
  | cons i indices ih =>
    obtain ⟨x,hi⟩ : ∃ x, l[i]? = some x :=
      ⟨_,List.getElem?_eq_getElem (h i List.mem_cons_self)⟩
    rw [List.filterMap_cons_some hi]
    cases k with
    | zero => exact hi.symm
    | succ k => exact ih (fun j hj => h j (List.mem_cons_of_mem i hj)) k

theorem length_filterMap_getElem? {α : Type*} {l : List α} {indices : List ℕ}
    (h : ∀ i ∈ indices, i < l.length) : (indices.filterMap (l[·]?)).length = indices.length := by
  induction indices with
  | nil => rfl
  | cons i indices ih =>
    obtain ⟨x,hi⟩ : ∃ x, l[i]? = some x :=
      ⟨_,List.getElem?_eq_getElem (h i List.mem_cons_self)⟩
    rw [List.filterMap_cons_some hi,List.length_cons,List.length_cons,
      ih fun j hj => h j (List.mem_cons_of_mem i hj)]

theorem length_visible (h : ∀ indices ∈ s.filteredIndices, ∀ i ∈ indices, i < s.entries.length) :
    s.visible.length = s.visibleCount := by
  rw [visible,visibleCount]
  split
  · rename_i indices hindices
    exact length_filterMap_getElem? (h indices hindices)
  · rfl

theorem Steady.shows (h : Steady tree toLowercase s) : Shows s := by
  have hindices : ∀ indices ∈ s.filteredIndices, ∀ i ∈ indices, i < s.entries.length :=
    fun indices hin => (h.fits indices hin).1
  have hlength := length_visible hindices
  refine ⟨hindices,?_,fun hne => ?_⟩
  · rw [currentEntry,effectiveCursorIndex,visible]
    cases hfilter : s.filteredIndices with
    | none => rfl
    | some indices =>
      have hcursor := h.cursor
      rw [visibleCount,hfilter] at hcursor
      simp only at hcursor ⊢
      rw [getElem?_filterMap_getElem? (hindices indices hfilter)]
      cases hat : indices[s.cursorIndex]? with
      | some i => rfl
      | none =>
        -- Nothing is under the cursor, so the filter leaves nothing.
        have hle : indices.length ≤ s.cursorIndex := List.getElem?_eq_none_iff.mp hat
        have hempty : indices = [] := by
          by_contra hne
          have := hcursor (fun h => hne (List.eq_nil_of_length_eq_zero h))
          omega
        have hnone : s.entries = [] :=
          List.eq_nil_of_length_eq_zero ((h.fits indices hfilter).2 hempty)
        rw [hnone]
        rfl
  · rw [hlength]
    refine h.cursor fun h0 => hne (List.eq_nil_of_length_eq_zero ?_)
    rw [hlength,h0]

/-! ### What an operation keeps -/

/-- A directory that was read is shown as a whole. -/
theorem steady_refresh_of_some {list : List DirEntry} (h : tree.readDir s.currentDir = some list) :
    Steady tree toLowercase (s.refresh tree toLowercase).1 := by
  rw [refresh_of_some h]
  refine ⟨rfl,fun indices hin => ?_,fun indices hin => ?_,fun hne => ?_⟩
  · cases hin
  · cases hin
  · simp only [visibleCount] at hne ⊢
    split <;> omega

/-- One that is not read keeps a filter that fits. -/
theorem steady_refresh_of_none (h : tree.readDir s.currentDir = none)
    (hfits : Fits s.filteredIndices (parentEntry tree s.currentDir).length)
    (hnodup : ∀ indices ∈ s.filteredIndices, indices.Nodup)
    (hcursor : s.cursorIndex = 0 ∨ s.entries = listing tree toLowercase s.currentDir s.showHidden ∧
      (s.visibleCount ≠ 0 → s.cursorIndex < s.visibleCount)) :
    Steady tree toLowercase (s.refresh tree toLowercase).1 := by
  have hlisting : listing tree toLowercase s.currentDir s.showHidden =
      parentEntry tree s.currentDir := by
    rw [listing,h,Option.map_none,Option.getD_none,List.append_nil]
  rw [refresh_of_none h]
  refine ⟨rfl,?_,hnodup,fun hne => ?_⟩
  · rw [hlisting]
    exact hfits
  · rcases hcursor with h0 | ⟨hentries,hcursor⟩
    · simp only [h0]
      exact Nat.pos_of_ne_zero hne
    · have hcount : visibleCount { s with
          entries := listing tree toLowercase s.currentDir s.showHidden, error := none } =
          s.visibleCount := by
        rw [visibleCount,visibleCount,hentries]
      rw [hcount] at hne ⊢
      exact hcursor hne

theorem steady_opened (startDir : Path) :
    Steady tree toLowercase (opened tree toLowercase startDir) := by
  rw [opened]
  generalize (if isAllowedPath _ _ then _ else _ : Path) = currentDir
  cases hread : tree.readDir currentDir with
  | some list => exact steady_refresh_of_some hread
  | none =>
    refine steady_refresh_of_none hread (fun indices hin => ?_) (fun indices hin => ?_) (.inl rfl)
    · cases hin
    · cases hin

theorem Steady.adjustScroll (h : Steady tree toLowercase s) :
    Steady tree toLowercase s.adjustScroll := by
  rw [FileExplorerState.adjustScroll]
  split
  · exact ⟨h.entries,h.fits,h.nodup,h.cursor⟩
  · split
    · exact ⟨h.entries,h.fits,h.nodup,h.cursor⟩
    · exact h

/-- The cursor goes somewhere among what is shown. -/
theorem Steady.withCursor (h : Steady tree toLowercase s) {cursorIndex : ℕ}
    (hcursor : s.visibleCount ≠ 0 → cursorIndex < s.visibleCount) :
    Steady tree toLowercase { s with cursorIndex } := ⟨h.entries,h.fits,h.nodup,hcursor⟩

theorem Steady.visibleCount_le (h : Steady tree toLowercase s) :
    s.visibleCount ≤ s.entries.length := by
  rw [visibleCount]
  split
  · rename_i indices hindices
    have hsub : indices ⊆ List.range s.entries.length :=
      fun i hi => List.mem_range.mpr ((h.fits indices hindices).1 i hi)
    have hlength := ((h.nodup indices hindices).subperm hsub).length_le
    rwa [List.length_range] at hlength
  · exact Nat.le_refl _

/-- A search that ends leaves the cursor where it is, which is below the last entry. -/
theorem Steady.withoutFilter (h : Steady tree toLowercase s) (mode : FileExplorerMode) :
    Steady tree toLowercase { s with mode, searchQuery := [], filteredIndices := none } := by
  refine ⟨h.entries,fun indices hin => (nomatch hin),fun indices hin => (nomatch hin),?_⟩
  intro hne
  have hle := h.visibleCount_le
  have hcount : s.visibleCount ≠ 0 := by
    intro h0
    rw [visibleCount] at h0
    split at h0
    · rename_i indices hindices
      exact hne ((h.fits indices hindices).2 (List.eq_nil_of_length_eq_zero h0))
    · exact hne h0
  exact Nat.lt_of_lt_of_le (h.cursor hcount) hle

theorem found_lt (query : Name) : ∀ i ∈ s.found toLowercase query, i < s.entries.length :=
  fun _ hi => List.mem_range.mp (List.mem_of_mem_filter hi)

theorem Steady.updateSearch (h : Steady tree toLowercase s) {query : Name}
    (hfound : query ≠ [] → s.found toLowercase query = [] → s.entries = []) :
    Steady tree toLowercase (s.updateSearch toLowercase query) := by
  rw [FileExplorerState.updateSearch]
  split
  · exact ⟨h.entries,fun indices hin => (nomatch hin),fun indices hin => (nomatch hin),
      Nat.pos_of_ne_zero⟩
  · rename_i hquery
    refine ⟨h.entries,fun indices hin => ?_,fun indices hin => ?_,Nat.pos_of_ne_zero⟩
    · rw [Option.mem_some_iff] at hin
      subst hin
      exact ⟨found_lt query,fun hnone => congrArg List.length (hfound hquery hnone)⟩
    · rw [Option.mem_some_iff] at hin
      subst hin
      exact List.nodup_range.filter _

theorem Steady.toggleHidden (h : Steady tree toLowercase s) :
    Steady tree toLowercase (s.toggleHidden tree toLowercase) := by
  rw [FileExplorerState.toggleHidden]
  cases hread : tree.readDir s.currentDir with
  | some list => exact steady_refresh_of_some hread
  | none =>
    have hlisting (showHidden : Bool) : listing tree toLowercase s.currentDir showHidden =
        parentEntry tree s.currentDir := by
      rw [listing,hread,Option.map_none,Option.getD_none,List.append_nil]
    have hentries := h.entries
    rw [hlisting] at hentries
    refine steady_refresh_of_none hread ?_ h.nodup (.inr ⟨?_,h.cursor⟩)
    · rw [← hentries]
      exact h.fits
    · rw [hlisting]
      exact hentries

/-- A smooth operation keeps it. -/
theorem Steady.perform (h : Steady tree toLowercase s) (hsmooth : Smooth tree toLowercase s a) :
    Steady tree toLowercase (s.perform tree toLowercase a).1 := by
  cases a with
  | enterDirectory path =>
    rw [FileExplorerState.perform,enterDirectory]
    split
    · exact h
    · rename_i canonical hcanonical
      split
      · exact ⟨h.entries,h.fits,h.nodup,h.cursor⟩
      · rename_i hallowed
        split
        · exact ⟨h.entries,h.fits,h.nodup,h.cursor⟩
        · rename_i hdir
          rw [Bool.not_eq_true,Bool.not_eq_false'] at hallowed hdir
          obtain ⟨list,hlist⟩ := Option.isSome_iff_exists.mp
            (hsmooth canonical hcanonical hallowed hdir)
          exact steady_refresh_of_some hlist
  | goUp =>
    rw [FileExplorerState.perform,goUp]
    split
    · exact h
    · rename_i up hup
      split
      · exact ⟨h.entries,h.fits,h.nodup,h.cursor⟩
      · rename_i hjail
        rw [Bool.not_eq_true,Bool.not_eq_false'] at hjail
        obtain ⟨list,hlist⟩ := Option.isSome_iff_exists.mp (hsmooth up hup hjail)
        exact steady_refresh_of_some hlist
  | goBack =>
    simp only [FileExplorerState.perform,goBack]
    split
    · exact h
    · rename_i prevDir hprev
      split
      · rename_i hjail
        cases hread : tree.readDir prevDir with
        | some list => exact steady_refresh_of_some hread
        | none =>
          rcases hsmooth prevDir hprev hjail with hsome | hfits
          · rw [hread] at hsome
            cases hsome
          · exact steady_refresh_of_none hread hfits h.nodup (.inl rfl)
      · exact ⟨h.entries,h.fits,h.nodup,h.cursor⟩
  | toggleSelection =>
    simp only [FileExplorerState.perform,toggleSelection]
    split
    · exact h
    · split
      · split <;> exact ⟨h.entries,h.fits,h.nodup,h.cursor⟩
      · exact h
  | updateSearch query => exact h.updateSearch hsmooth
  | toggleHidden => exact h.toggleHidden
  | cursorUp =>
    refine (h.withCursor fun hne => ?_).adjustScroll
    have := h.cursor hne
    omega
  | cursorDown =>
    refine Steady.adjustScroll ?_
    split
    · exact h.withCursor fun hne => by omega
    · exact h
  | pageUp pageSize =>
    refine (h.withCursor fun hne => ?_).adjustScroll
    have := h.cursor hne
    omega
  | pageDown pageSize => exact (h.withCursor fun hne => by omega).adjustScroll
  | startSearch => exact h.withoutFilter .search
  | exitSearch => exact h.withoutFilter .browser
  | selectAllFiles => exact ⟨h.entries,h.fits,h.nodup,h.cursor⟩
  | clearSelection => exact ⟨h.entries,h.fits,h.nodup,h.cursor⟩

/-! ### The laws -/

/-- A filter that leaves nothing would put the first entry under the cursor. -/
theorem Shows.fits (h : Shows s) : Fits s.filteredIndices s.entries.length := by
  intro indices hin
  refine ⟨h.indices indices hin,fun hempty => ?_⟩
  subst hempty
  have hcurrent := h.current
  rw [Option.mem_def] at hin
  rw [currentEntry,effectiveCursorIndex,visible,hin] at hcurrent
  simp only [List.getElem?_nil,Option.getD_none,List.filterMap_nil] at hcurrent
  exact Nat.le_zero.mp (List.getElem?_eq_none_iff.mp hcurrent)

theorem Shows.selects (h : Shows s) : ∀ path ∈ s.toggleSelection.selectedFiles,
    path ∉ s.selectedFiles → ∃ entry ∈ s.visible, entry.path = path := by
  intro path hpath hnew
  rw [toggleSelection] at hpath
  split at hpath
  · exact absurd hpath hnew
  · rename_i entry hentry
    split at hpath
    · split at hpath
      · exact absurd (List.mem_of_mem_filter hpath) hnew
      · rename_i hnot
        simp only [insertPath,if_neg hnot,List.mem_append,List.mem_singleton] at hpath
        rcases hpath with hpath | rfl
        · exact absurd hpath hnew
        · rw [h.current] at hentry
          exact ⟨entry,List.mem_of_getElem? hentry,rfl⟩
    · exact absurd hpath hnew

/-- A move that is read moves, and does not fail. -/
theorem not_fails_of_refresh {t : FileExplorerState} {list : List DirEntry}
    (h : s.perform tree toLowercase a = t.refresh tree toLowercase)
    (hread : tree.readDir t.currentDir = some list) : ¬Fails tree toLowercase s a := by
  rw [Fails,h,refresh_of_some hread]
  rintro (hresult | herror)
  · exact hresult rfl
  · cases herror

/-- One that is not read fails, and has moved. -/
theorem not_unchanged_of_refresh {dir : Path}
    (h : s.perform tree toLowercase a =
      ({ s with history := s.history ++ [s.currentDir] }.moveTo dir).refresh tree toLowercase)
    (ha : a.Moves) (hread : tree.readDir dir = none) : ¬Lawful tree toLowercase s a := by
  rintro ⟨hunchanged,-,-⟩
  have hfails : Fails tree toLowercase s a := by
    refine .inl ?_
    rw [h,refresh_of_none hread]
    exact fun hresult => (nomatch hresult)
  have hhistory := (hunchanged ha hfails).2.2
  rw [h,refresh_of_none hread] at hhistory
  have hlength := congrArg List.length hhistory
  simp only [moveTo,List.length_append,List.length_singleton] at hlength
  omega

theorem perform_enterDirectory {path canonical : Path}
    (hcanonical : tree.canonicalize path = some canonical)
    (hallowed : isAllowedPath canonical tree.rootJail = true)
    (hdir : tree.isDir canonical = true) :
    s.perform tree toLowercase (.enterDirectory path) =
      ({ s with history := s.history ++ [s.currentDir] }.moveTo canonical).refresh tree
        toLowercase := by
  rw [perform,enterDirectory,hcanonical]
  simp only [hallowed,hdir,Bool.not_true,Bool.false_eq_true,if_false]

theorem perform_goUp {up : Path} (hup : parent s.currentDir = some up)
    (hjail : isWithinJail tree up = true) :
    s.perform tree toLowercase .goUp =
      ({ s with history := s.history ++ [s.currentDir] }.moveTo up).refresh tree toLowercase := by
  rw [perform,goUp,hup]
  simp only [hjail,Bool.not_true,Bool.false_eq_true,if_false]

theorem perform_goBack {prevDir : Path} (hprev : s.history.getLast? = some prevDir)
    (hjail : isWithinJail tree prevDir = true) :
    (s.perform tree toLowercase .goBack).1 =
      (({ s with history := s.history.dropLast }.moveTo prevDir).refresh tree toLowercase).1 := by
  simp only [perform,goBack,hprev,hjail,if_true]

/-- A move that fails although its directory can be read has been refused before it moved. -/
theorem unchanged_of_smooth (ha : a.Moves) (hsmooth : Smooth tree toLowercase s a)
    (hfails : Fails tree toLowercase s a) :
    (s.perform tree toLowercase a).1.currentDir = s.currentDir ∧
      (s.perform tree toLowercase a).1.entries = s.entries ∧
      (s.perform tree toLowercase a).1.history = s.history := by
  cases a with
  | enterDirectory path =>
    cases hcanonical : tree.canonicalize path with
    | none =>
      rw [perform,enterDirectory,hcanonical]
      exact ⟨rfl,rfl,rfl⟩
    | some canonical =>
      cases hallowed : isAllowedPath canonical tree.rootJail with
      | false =>
        rw [perform,enterDirectory,hcanonical]
        simp only [hallowed]
        exact ⟨rfl,rfl,rfl⟩
      | true =>
        cases hdir : tree.isDir canonical with
        | false =>
          rw [perform,enterDirectory,hcanonical]
          simp only [hallowed,hdir]
          exact ⟨rfl,rfl,rfl⟩
        | true =>
          obtain ⟨list,hlist⟩ := Option.isSome_iff_exists.mp
            (hsmooth canonical hcanonical hallowed hdir)
          exact absurd hfails
            (not_fails_of_refresh (perform_enterDirectory hcanonical hallowed hdir) hlist)
  | goUp =>
    cases hup : parent s.currentDir with
    | none =>
      rw [perform,goUp,hup]
      exact ⟨rfl,rfl,rfl⟩
    | some up =>
      cases hjail : isWithinJail tree up with
      | false =>
        rw [perform,goUp,hup]
        simp only [hjail]
        exact ⟨rfl,rfl,rfl⟩
      | true =>
        obtain ⟨list,hlist⟩ := Option.isSome_iff_exists.mp (hsmooth up hup hjail)
        exact absurd hfails (not_fails_of_refresh (perform_goUp hup hjail) hlist)
  | _ => cases ha

theorem smooth_of_lawful (h : Lawful tree toLowercase s a) : Smooth tree toLowercase s a := by
  cases a with
  | enterDirectory path =>
    intro canonical hcanonical hallowed hdir
    cases hread : tree.readDir canonical with
    | some list => rfl
    | none =>
      exact absurd h (not_unchanged_of_refresh (perform_enterDirectory hcanonical hallowed hdir)
        trivial hread)
  | goUp =>
    intro up hup hjail
    cases hread : tree.readDir up with
    | some list => rfl
    | none => exact absurd h (not_unchanged_of_refresh (perform_goUp hup hjail) trivial hread)
  | goBack =>
    intro prevDir hprev hjail
    cases hread : tree.readDir prevDir with
    | some list => exact .inl rfl
    | none =>
      have hfits := h.shows.fits
      rw [perform_goBack hprev hjail,refresh_of_none hread] at hfits
      simp only [moveTo,listing,hread,Option.map_none,Option.getD_none,List.append_nil] at hfits
      exact .inr hfits
  | updateSearch query =>
    intro hquery hfound
    have hfits := h.shows.fits
    simp only [perform,updateSearch,if_neg hquery,hfound] at hfits
    exact List.eq_nil_of_length_eq_zero ((hfits [] rfl).2 rfl)
  | _ => trivial

theorem lawful_iff (hs : Steady tree toLowercase s) :
    Lawful tree toLowercase s a ↔ Smooth tree toLowercase s a :=
  ⟨smooth_of_lawful,fun hsmooth => ⟨fun ha hfails => unchanged_of_smooth ha hsmooth hfails,
    (hs.perform hsmooth).shows,hs.shows.selects⟩⟩

/-- From any start directory, every operation of a run stays in the jail. The other laws hold of
all of them exactly where all of them are smooth. -/
theorem explorer_laws (tree : Tree) (toLowercase : Name → Name) (startDir : Path)
    (actions : List Action) :
    (∀ p ∈ (explorer tree toLowercase).trail (opened tree toLowercase startDir) actions,
      Jailed tree p.1 ∧ Jailed tree ((explorer tree toLowercase).next p.1 p.2)) ∧
    Shows (opened tree toLowercase startDir) ∧
    ((∀ p ∈ (explorer tree toLowercase).trail (opened tree toLowercase startDir) actions,
        Lawful tree toLowercase p.1 p.2) ↔
      ∀ p ∈ (explorer tree toLowercase).trail (opened tree toLowercase startDir) actions,
        Smooth tree toLowercase p.1 p.2) := by
  have hrun : ∀ s, (explorer tree toLowercase).Run s actions := by
    induction actions with
    | nil => exact fun _ => trivial
    | cons a actions ih => exact fun s => ⟨trivial,ih _⟩
  have hsteady : Steady tree toLowercase (opened tree toLowercase startDir) :=
    steady_opened startDir
  refine ⟨fun p hp => ?_,hsteady.shows,?_⟩
  · have hjailed := ((hrun _).mem_trail (I := Jailed tree) (fun s a h _ => jailed_perform h)
      (jailed_opened startDir) hp).1
    exact ⟨hjailed,jailed_perform hjailed⟩
  · exact (hrun _).forall_iff (G := Steady tree toLowercase)
      (fun s a h _ hsmooth => h.perform hsmooth) (fun s a h _ => lawful_iff h) hsteady

def home : Path := ["/".toList,"home".toList]

def closedDir : Path := ["/".toList,"tmp".toList,"d".toList]

/-- One file at home, and a directory that cannot be read. -/
def sampleTree : Tree where
  canonicalize path := if path = root ∨ path = home ∨ path = closedDir then some path else none
  isDir _ := true
  readDir path := if path = home then some [⟨"a".toList,some (.other 1)⟩] else none
  homeDir := some home
  canonicalize_canonicalize path canonical h := by
    rw [Option.mem_def] at h ⊢
    split at h
    · rename_i hpath
      cases h
      exact if_pos hpath
    · cases h

/-- Entering that directory fails after it moved there, and a search that leaves nothing lets the
file be selected that is not shown. -/
theorem explorer_departs :
    ¬Lawful sampleTree id (opened sampleTree id home) (.enterDirectory closedDir) ∧
    ((opened sampleTree id home).enterDirectory sampleTree id closedDir).1.currentDir = closedDir ∧
    ((opened sampleTree id home).updateSearch id "z".toList).visible = [] ∧
    ((opened sampleTree id home).updateSearch id "z".toList).toggleSelection.selectedFiles =
      [home ++ ["a".toList]] := by
  refine ⟨fun h => ?_,by decide +kernel,by decide +kernel,by decide +kernel⟩
  have hread := smooth_of_lawful h closedDir (by decide +kernel) (by decide +kernel) rfl
  exact absurd hread (by decide +kernel)

end Rullama.Explorer
