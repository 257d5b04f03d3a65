import Mathlib.Data.Finset.Basic
import Rullama.Text.Trim
import Rullama.Tools.Json
import Rullama.Tui.NanoEditor

/-! # Instruction files and their imports

A line `@path` of an instruction file stands for the file at that path, read in the same way.
The files on the way from the root are kept by their canonical names, so that a file that
imports itself is found, and the way is bounded.
-/
namespace Rullama.Utils

open Rullama.Text Rullama.Nano
open Rullama.Tools (isWhitespace)

abbrev Path := List Char

namespace Path

/-- The end of a path, read backwards, without separators and without parts `.` in it. -/
def trimRight : Path → Path
  | '/' :: c :: rest => trimRight (c :: rest)
  | '.' :: '/' :: rest => trimRight ('/' :: rest)
  | path => path

/-- `Path::parent` -/
def parent (path : Path) : Option Path :=
  match trimRight path.reverse with
  | [] => none
  | ['/'] => none
  | reversed => some (trimRight (reversed.dropWhile (· ≠ '/'))).reverse

/-- `Path::join` -/
def join (base path : Path) : Path :=
  if path.head? = some '/' ∨ base = [] then path
  else if base.getLast? = some '/' then base ++ path
  else base ++ '/' :: path

end Path

example : Path.parent "/a/b.md".toList = some "/a".toList ∧ Path.parent "b.md".toList = some [] ∧
    Path.parent "./a/./b.md".toList = some "./a".toList ∧ Path.parent "/".toList = none := by
  decide

/-- What the paths lead to. Two paths lead to one file where there are links, and a directory is
there but has no text. -/
structure Files (F : Type*) where
  canonicalize : Path → Option F
  readToString : F → Option (List Char)
  parent_of_text : ∀ path file, file ∈ canonicalize path → (readToString file).isSome →
    (Path.parent path).isSome

def MAX_IMPORT_DEPTH : ℕ := 10

/-- The path of an import line. -/
def parseImportLine (line : List Char) : Option Path :=
  match trimmed isWhitespace line with
  | '@' :: path => if path.head? = some '@' ∨ ' ' ∈ path ∨ path = [] then none else some path
  | _ => none

variable {F : Type*} [DecidableEq F]

/-- What a parser of files gives: the text and the files that are open then. -/
abbrev Parsed (F : Type*) := Except String (List Char × Finset F)

/-- The loop over the lines of the file at `filePath`. -/
def parseLines (files : Files F) (parse : Path → Finset F → Parsed F) (filePath baseDir : Path) :
    List (List Char) → List Char → Finset F → Parsed F
  | [],result,visited => .ok (result,visited)
  | line :: lines,result,visited =>
    match parseImportLine line with
    | some importPath =>
      let importedFile := Path.join baseDir importPath
      if (files.canonicalize importedFile).isNone then
        .error ("Import file not found: " ++ .ofList importedFile ++ " (referenced in " ++
          .ofList filePath ++ ")")
      else
        match parse importedFile visited with
        | .error e => .error e
        | .ok (importedContent,visited) =>
          parseLines files parse filePath baseDir lines (result ++ importedContent ++ ['\n']) visited
    | none => parseLines files parse filePath baseDir lines (result ++ line ++ ['\n']) visited

def parseFileWithImports (files : Files F) (filePath : Path) (visited : Finset F) (depth : ℕ) :
    Parsed F :=
  if depth > MAX_IMPORT_DEPTH then
    .error ("Maximum import depth exceeded (" ++ toString MAX_IMPORT_DEPTH ++
      "). Possible circular dependency.")
  else
    match files.canonicalize filePath with
    | none => .error ("Failed to resolve path: " ++ .ofList filePath)
    | some canonicalPath =>
      if canonicalPath ∈ visited then .error ("Circular import detected: " ++ .ofList filePath)
      else
        match files.readToString canonicalPath with
        | none => .error ("Failed to read file: " ++ .ofList filePath)
        | some content =>
          match Path.parent filePath with
          | none => .error ("Failed to get parent directory for: " ++ .ofList filePath)
          | some baseDir =>
            let parse := fun path visited => parseFileWithImports files path visited (depth + 1)
            match parseLines files parse filePath baseDir (linesOf content) []
              (insert canonicalPath visited) with
            | .error e => .error e
            | .ok (result,visited) => .ok (result,visited.erase canonicalPath)
termination_by MAX_IMPORT_DEPTH + 1 - depth
decreasing_by omega

/-! ## Chains of imports -/

omit [DecidableEq F] in
variable (files : Files F) in
/-- The text of the file that a path leads to. -/
def Files.text (path : Path) : Option (List Char) :=
  (files.canonicalize path).bind files.readToString

/-- The file at the first path has a line that imports the second one. -/
def Imports (files : Files F) (path imported : Path) : Prop :=
  ∃ content ∈ files.text path, ∃ line ∈ linesOf content, ∃ importPath ∈ parseImportLine line,
    ∃ baseDir ∈ Path.parent path, imported = Path.join baseDir importPath

mutual

/-- The text that stands for a path. -/
inductive Includes (files : Files F) : Path → List Char → Prop
  | file {path content baseDir result} : content ∈ files.text path →
      baseDir ∈ Path.parent path → IncludesLines files baseDir (linesOf content) result →
      Includes files path result

/-- The text that stands for lines of a file in this directory. -/
inductive IncludesLines (files : Files F) : Path → List (List Char) → List Char → Prop
  | nil {baseDir} : IncludesLines files baseDir [] []
  | imported {baseDir line lines importPath content result} :
      importPath ∈ parseImportLine line →
      Includes files (Path.join baseDir importPath) content →
      IncludesLines files baseDir lines result →
      IncludesLines files baseDir (line :: lines) (content ++ ['\n'] ++ result)
  | regular {baseDir line lines result} : parseImportLine line = none →
      IncludesLines files baseDir lines result →
      IncludesLines files baseDir (line :: lines) (line ++ ['\n'] ++ result)

end

/-- Every chain of imports from `path` stays among files that are there, repeats none, leads to
none that is open and ends within the bound. -/
def Clear (files : Files F) (visited : Finset F) (depth : ℕ) (path : Path) : Prop :=
  ∀ chain, (path :: chain).IsChain (Imports files) →
    ((path :: chain).map files.canonicalize).Nodup ∧
      (∀ imported ∈ path :: chain, (files.text imported).isSome ∧
        ∀ file ∈ files.canonicalize imported, file ∉ visited) ∧
      depth + chain.length ≤ MAX_IMPORT_DEPTH

variable {files : Files F} {visited : Finset F} {depth : ℕ} {path baseDir : Path}

omit [DecidableEq F] in
theorem text_eq_some {content : List Char} : files.text path = some content ↔
    ∃ file, files.canonicalize path = some file ∧ files.readToString file = some content :=
  Option.bind_eq_some_iff

theorem Clear.imported (h : Clear files visited depth path) : ∃ file content,
    files.canonicalize path = some file ∧ files.readToString file = some content ∧
      file ∉ visited ∧ ∀ imported, Imports files path imported →
        Clear files (insert file visited) (depth + 1) imported := by
  obtain ⟨-,hmem,-⟩ := h [] (.singleton _)
  obtain ⟨htext,hfresh⟩ := hmem path List.mem_cons_self
  obtain ⟨content,hcontent⟩ := Option.isSome_iff_exists.mp htext
  obtain ⟨file,hfile,hread⟩ := text_eq_some.mp hcontent
  refine ⟨file,content,hfile,hread,hfresh file hfile,?_⟩
  intro imported himports chain hchain
  obtain ⟨hnodup,hall,hlength⟩ := h (imported :: chain) (List.IsChain.cons_cons himports hchain)
  rw [List.map_cons,List.nodup_cons] at hnodup
  refine ⟨hnodup.2,?_,?_⟩
  · intro q hq
    obtain ⟨hq',hnew⟩ := hall q (List.mem_cons_of_mem _ hq)
    refine ⟨hq',fun other hother hin => ?_⟩
    rcases Finset.mem_insert.mp hin with rfl | hin
    · apply hnodup.1
      rw [hfile,← hother]
      exact List.mem_map_of_mem hq
    · exact hnew other hother hin
  · rw [List.length_cons] at hlength
    omega

theorem clear_of_imported {file : F} {content : List Char} (hdepth : depth ≤ MAX_IMPORT_DEPTH)
    (hfile : files.canonicalize path = some file) (hread : files.readToString file = some content)
    (hfresh : file ∉ visited) (himports : ∀ imported, Imports files path imported →
      Clear files (insert file visited) (depth + 1) imported) : Clear files visited depth path := by
  intro chain hchain
  have hself : (files.text path).isSome ∧ ∀ other ∈ files.canonicalize path, other ∉ visited := by
    refine ⟨?_,?_⟩
    · rw [text_eq_some.mpr ⟨file,hfile,hread⟩]
      rfl
    · intro other hother
      rw [hfile,Option.mem_some_iff] at hother
      exact hother ▸ hfresh
  cases chain with
  | nil =>
    refine ⟨List.nodup_singleton _,?_,hdepth⟩
    intro q hq
    rw [List.mem_singleton.mp hq]
    exact hself
  | cons imported chain =>
    rw [List.isChain_cons_cons] at hchain
    obtain ⟨hnodup,hall,hlength⟩ := himports imported hchain.1 chain hchain.2
    refine ⟨?_,?_,?_⟩
    · rw [List.map_cons,List.nodup_cons]
      refine ⟨?_,hnodup⟩
      intro hin
      obtain ⟨q,hq,hsame⟩ := List.mem_map.mp hin
      exact (hall q hq).2 file (hsame.trans hfile) (Finset.mem_insert_self _ _)
    · intro q hq
      rcases List.mem_cons.mp hq with rfl | hq
      · exact hself
      · exact ⟨(hall q hq).1,fun other hother hin =>
          (hall q hq).2 other hother (Finset.mem_insert_of_mem hin)⟩
    · rw [List.length_cons]
      omega

theorem clear_iff : Clear files visited depth path ↔ depth ≤ MAX_IMPORT_DEPTH ∧
    ∃ file content, files.canonicalize path = some file ∧
      files.readToString file = some content ∧ file ∉ visited ∧
      ∀ imported, Imports files path imported →
        Clear files (insert file visited) (depth + 1) imported := by
  constructor
  · exact fun h => ⟨(h [] (.singleton _)).2.2,h.imported⟩
  · rintro ⟨hdepth,file,content,hfile,hread,hfresh,himports⟩
    exact clear_of_imported hdepth hfile hread hfresh himports

/-! ## The loop and the recursion -/

section lines
variable {parse : Path → Finset F → Parsed F} {filePath : Path} {lines : List (List Char)}
  {result r : List Char} {visited' : Finset F}

omit [DecidableEq F] in
theorem parseLines_ok (hparse : ∀ q s v, parse q visited = .ok (s,v) → v = visited ∧
      Includes files q s)
    (h : parseLines files parse filePath baseDir lines result visited = .ok (r,visited')) :
    visited' = visited ∧ (∃ s, r = result ++ s ∧ IncludesLines files baseDir lines s) ∧
      ∀ line ∈ lines, ∀ importPath ∈ parseImportLine line,
        ∃ s, parse (Path.join baseDir importPath) visited = .ok (s,visited) := by
  induction lines generalizing result with
  | nil =>
    cases h
    exact ⟨rfl,⟨[],(List.append_nil _).symm,.nil⟩,fun line hline => absurd hline List.not_mem_nil⟩
  | cons line lines ih =>
    rw [parseLines] at h
    cases hline : parseImportLine line with
    | none =>
      rw [hline] at h
      obtain ⟨hv,⟨s,hs,hincludes⟩,hall⟩ := ih h
      refine ⟨hv,⟨_,?_,.regular hline hincludes⟩,?_⟩
      · rw [hs]
        simp only [List.append_assoc]
      · intro other hother importPath himport
        rcases List.mem_cons.mp hother with rfl | hother
        · rw [hline] at himport
          cases himport
        · exact hall other hother importPath himport
    | some importPath =>
      rw [hline] at h
      simp only at h
      split at h
      · cases h
      · cases hone : parse (Path.join baseDir importPath) visited with
        | error e =>
          rw [hone] at h
          cases h
        | ok one =>
          obtain ⟨content,v⟩ := one
          rw [hone] at h
          obtain ⟨rfl,hincluded⟩ := hparse _ _ _ hone
          obtain ⟨hv,⟨s,hs,hincludes⟩,hall⟩ := ih h
          refine ⟨hv,⟨_,?_,.imported hline hincluded hincludes⟩,?_⟩
          · rw [hs]
            simp only [List.append_assoc]
          · intro other hother otherPath himport
            rcases List.mem_cons.mp hother with rfl | hother
            · rw [hline,Option.mem_some_iff] at himport
              exact ⟨content,himport ▸ hone⟩
            · exact hall other hother otherPath himport

omit [DecidableEq F] in
theorem parseLines_complete (hparse : ∀ line ∈ lines, ∀ importPath ∈ parseImportLine line,
      (files.canonicalize (Path.join baseDir importPath)).isSome ∧
        ∃ s, parse (Path.join baseDir importPath) visited = .ok (s,visited)) :
    ∃ r, parseLines files parse filePath baseDir lines result visited = .ok (r,visited) := by
  induction lines generalizing result with
  | nil => exact ⟨result,rfl⟩
  | cons line lines ih =>
    have hrest := fun other hother => hparse other (List.mem_cons_of_mem _ hother)
    rw [parseLines]
    cases hline : parseImportLine line with
    | none => exact ih hrest
    | some importPath =>
      obtain ⟨hthere,s,hs⟩ := hparse line List.mem_cons_self importPath hline
      have hnone : ¬((files.canonicalize (Path.join baseDir importPath)).isNone = true) := by
        rw [Option.isNone_iff_eq_none]
        intro h
        rw [h] at hthere
        cases hthere
      simp only [if_neg hnone,hs]
      exact ih hrest

end lines

theorem parseFileWithImports_ok_iff {r : List Char} {visited' : Finset F} :
    parseFileWithImports files path visited depth = .ok (r,visited') ↔
      depth ≤ MAX_IMPORT_DEPTH ∧ ∃ file content baseDir v,
        files.canonicalize path = some file ∧ files.readToString file = some content ∧
          file ∉ visited ∧ Path.parent path = some baseDir ∧
          parseLines files (fun q v => parseFileWithImports files q v (depth + 1)) path baseDir
            (linesOf content) [] (insert file visited) = .ok (r,v) ∧ visited' = v.erase file := by
  rw [parseFileWithImports]
  split
  · rename_i hdepth
    exact ⟨fun h => (nomatch h),fun h => absurd h.1 (by omega)⟩
  · rename_i hdepth
    constructor
    · intro h
      split at h
      · cases h
      · rename_i file hfile
        split at h
        · cases h
        · rename_i hfresh
          split at h
          · cases h
          · rename_i content hread
            split at h
            · cases h
            · rename_i baseDir hparent
              simp only at h
              split at h
              · cases h
              · rename_i result v hlines
                cases h
                exact ⟨by omega,file,content,baseDir,v,hfile,hread,hfresh,hparent,hlines,rfl⟩
    · rintro ⟨-,file,content,baseDir,v,hfile,hread,hfresh,hparent,hlines,rfl⟩
      simp only [hfile,if_neg hfresh,hread,hparent,hlines]

/-- A parse that succeeds gives the text that stands for the path and leaves no file open. -/
theorem parseFileWithImports_includes (r : List Char) (visited' : Finset F)
    (h : parseFileWithImports files path visited depth = .ok (r,visited')) :
    visited' = visited ∧ Includes files path r := by
  generalize hk : MAX_IMPORT_DEPTH + 1 - depth = k
  induction k generalizing path visited depth r visited' with
  | zero =>
    obtain ⟨hdepth,-⟩ := parseFileWithImports_ok_iff.mp h
    omega
  | succ k ih =>
    obtain ⟨hdepth,file,content,baseDir,v,hfile,hread,hfresh,hparent,hlines,rfl⟩ :=
      parseFileWithImports_ok_iff.mp h
    obtain ⟨rfl,⟨s,hs,hincludes⟩,-⟩ := parseLines_ok
      (fun q s v hq => ih s v hq (by omega)) hlines
    rw [List.nil_append] at hs
    subst hs
    exact ⟨Finset.erase_insert hfresh,
      .file (text_eq_some.mpr ⟨file,hfile,hread⟩) hparent hincludes⟩

theorem parseFileWithImports_isOk_iff :
    (∃ r, parseFileWithImports files path visited depth = .ok (r,visited)) ↔
      Clear files visited depth path := by
  generalize hk : MAX_IMPORT_DEPTH + 1 - depth = k
  induction k generalizing path visited depth with
  | zero =>
    rw [clear_iff]
    constructor
    · rintro ⟨r,h⟩
      have := (parseFileWithImports_ok_iff.mp h).1
      omega
    · rintro ⟨hdepth,-⟩
      omega
  | succ k ih =>
    rw [clear_iff]
    constructor
    · rintro ⟨r,h⟩
      obtain ⟨hdepth,file,content,baseDir,v,hfile,hread,hfresh,hparent,hlines,-⟩ :=
        parseFileWithImports_ok_iff.mp h
      obtain ⟨-,-,hall⟩ := parseLines_ok
        (fun q s v hq => parseFileWithImports_includes s v hq) hlines
      refine ⟨hdepth,file,content,hfile,hread,hfresh,?_⟩
      rintro imported ⟨content',hcontent,line,hline,importPath,himport,baseDir',hparent',rfl⟩
      rw [text_eq_some.mpr ⟨file,hfile,hread⟩,Option.mem_some_iff] at hcontent
      rw [hparent,Option.mem_some_iff] at hparent'
      subst hcontent hparent'
      exact (ih (by omega)).mp (hall line hline importPath himport)
    · rintro ⟨hdepth,file,content,hfile,hread,hfresh,himports⟩
      obtain ⟨baseDir,hparent⟩ := Option.isSome_iff_exists.mp
        (files.parent_of_text path file hfile (by rw [hread]; rfl))
      have hparse : ∀ line ∈ linesOf content, ∀ importPath ∈ parseImportLine line,
          (files.canonicalize (Path.join baseDir importPath)).isSome ∧
            ∃ s, parseFileWithImports files (Path.join baseDir importPath) (insert file visited)
              (depth + 1) = .ok (s,insert file visited) := by
        intro line hline importPath himport
        have hclear := himports _ ⟨content,text_eq_some.mpr ⟨file,hfile,hread⟩,line,hline,
          importPath,himport,baseDir,hparent,rfl⟩
        obtain ⟨-,other,-,hother,-⟩ := clear_iff.mp hclear
        exact ⟨by rw [hother]; rfl,(ih (by omega)).mpr hclear⟩
      obtain ⟨r,hlines⟩ : ∃ r, parseLines files
          (fun q v => parseFileWithImports files q v (depth + 1)) path baseDir (linesOf content) []
          (insert file visited) = .ok (r,insert file visited) := parseLines_complete hparse
      exact ⟨r,parseFileWithImports_ok_iff.mpr ⟨hdepth,file,content,baseDir,_,hfile,hread,hfresh,
        hparent,hlines,(Finset.erase_insert hfresh).symm⟩⟩

section unique
omit [DecidableEq F]

mutual

theorem Includes.unique {files : Files F} {path : Path} {r s : List Char} :
    Includes files path r → Includes files path s → r = s
  | .file hcontent hparent hlines,.file hcontent' hparent' hlines' => by
    apply hlines.unique
    rw [Option.mem_unique hcontent hcontent',Option.mem_unique hparent hparent']
    exact hlines'

theorem IncludesLines.unique {files : Files F} {baseDir : Path} {lines : List (List Char)}
    {r s : List Char} :
    IncludesLines files baseDir lines r → IncludesLines files baseDir lines s → r = s
  | .nil,.nil => rfl
  | .imported hpath hcontent hlines,.imported hpath' hcontent' hlines' => by
    rw [hlines.unique hlines']
    congr 2
    apply hcontent.unique
    rw [Option.mem_unique hpath hpath']
    exact hcontent'
  | .imported hpath _ _,.regular hnone _ => by
    rw [hnone] at hpath
    cases hpath
  | .regular hnone _,.imported hpath _ _ => by
    rw [hnone] at hpath
    cases hpath
  | .regular _ hlines,.regular _ hlines' => by rw [hlines.unique hlines']

end

end unique

/-- An instruction file is read where its imports repeat no file, miss none and are not too
deep, and it is then the text with each import in its place. -/
theorem parseFileWithImports_spec (files : Files F) (root : Path) :
    ((∃ r, parseFileWithImports files root ∅ 0 = .ok (r,∅)) ↔
      ∀ chain, (root :: chain).IsChain (Imports files) →
        ((root :: chain).map files.canonicalize).Nodup ∧
          (∀ imported ∈ root :: chain, (files.text imported).isSome) ∧
          chain.length ≤ MAX_IMPORT_DEPTH) ∧
      ∀ r visited, parseFileWithImports files root ∅ 0 = .ok (r,visited) →
        visited = ∅ ∧ ∀ s, Includes files root s ↔ s = r := by
  refine ⟨?_,?_⟩
  · rw [parseFileWithImports_isOk_iff]
    refine forall₂_congr fun chain hchain => ?_
    simp only [Finset.notMem_empty,not_false_eq_true,implies_true,and_true,Nat.zero_add]
  · intro r visited h
    obtain ⟨hvisited,hincludes⟩ := parseFileWithImports_includes r visited h
    refine ⟨hvisited,fun s => ⟨fun hs => hs.unique hincludes,fun hs => hs ▸ hincludes⟩⟩

end Rullama.Utils
