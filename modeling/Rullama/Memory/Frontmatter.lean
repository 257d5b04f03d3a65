import Rullama.Tools.Json

/-! # Memory files

A memory is a markdown file under its slug. Its name and description stand in a frontmatter
that is read back line by line.
-/
namespace Rullama.Memory
open Tools (isWhitespace trimStart trimEnd trim startsWith stripPrefix stripSuffix
  stripSuffix_eq_some notMem_of_mem_splitOn)

def memoryTypes : List String := ["user","feedback","project","reference"]

def slugChar (c : Char) : Option Char :=
  if c.isAlphanum || c = '_' || c = '-' then some c.toLower
  else if isWhitespace c then some '_'
  else none

/-- `str::trim_matches` of one character -/
def trimMatches (c : Char) (l : List Char) : List Char := (l.dropWhile (· = c)).rdropWhile (· = c)

def slugify (name : String) : String := .ofList (trimMatches '_' (name.toList.filterMap slugChar))

def renderMemoryFile (name description kind content : String) : String :=
  "---\nname: " ++ name ++ "\ndescription: " ++ description ++ "\ntype: " ++ kind ++ "\n---\n\n" ++
    trimEnd content ++ "\n"

structure MemoryEntry where
  slug : String
  name : String
  description : String
deriving DecidableEq

/-! ## Reading -/

/-- What comes before the first occurrence of a pattern. -/
def before (pat : List Char) : List Char → Option (List Char)
  | [] => if pat.isEmpty then some [] else none
  | c :: l => if pat.isPrefixOf (c :: l) then some [] else (before pat l).map (c :: ·)

/-- A line end is `\n` or `\r\n`. -/
def withoutReturn (line : List Char) : List Char :=
  if line.getLast? = some '\r' then line.dropLast else line

/-- `str::lines`, which has no empty last line -/
def lines (text : String) : List String :=
  let parts := text.toList.splitOn '\n'
  let last := parts.getLast?.getD []
  (parts.dropLast.map withoutReturn ++ if last.isEmpty then [] else [last]).map .ofList

structure Fields where
  name : Option String := none
  description : Option String := none

def Fields.read (fields : Fields) (line : String) : Fields :=
  let line := trim line
  match stripPrefix line "name:", stripPrefix line "description:" with
  | some value, _ => { fields with name := some (trim value) }
  | none, some value => { fields with description := some (trim value) }
  | none, none => fields

def readFields (frontmatter : String) : Fields := (lines frontmatter).foldl Fields.read {}

/-- The slug is left to the caller. -/
def parseFrontmatter (text : String) : Option MemoryEntry :=
  let text := trimStart text
  if startsWith text "---" then
    match before "\n---".toList (text.toList.drop 3) with
    | none => none
    | some frontmatter =>
      let fields := readFields (.ofList frontmatter)
      fields.name.map (fun name => ⟨"",name,fields.description.getD ""⟩)
  else none

/-! ## Trimming -/

/-- A text without line ends, and without white space around it. -/
structure OneLine (text : String) : Prop where
  trimmed : trim text = text
  unbroken : '\n' ∉ text.toList

section Lists
variable {α : Type*} (p : α → Bool)

theorem rdropWhile_append (l r : List α) : (l ++ r).rdropWhile p =
    if (r.rdropWhile p).isEmpty then l.rdropWhile p else l ++ r.rdropWhile p := by
  rw [List.rdropWhile,List.reverse_append,List.dropWhile_append]
  simp only [List.rdropWhile,List.isEmpty_reverse]
  split
  · rfl
  · rw [List.reverse_append,List.reverse_reverse]

theorem rdropWhile_append_of_eq {l : List α} (h : l.rdropWhile p = l) (r : List α) :
    (l ++ r).rdropWhile p = l ++ r.rdropWhile p := by
  rw [rdropWhile_append]
  split
  · next hr => rw [List.isEmpty_iff.mp hr,h,List.append_nil]
  · rfl

end Lists

namespace OneLine
variable {text : String}

theorem trimStart_eq (h : OneLine text) : text.toList.dropWhile isWhitespace = text.toList := by
  have htrim := congrArg (fun t => t.toList.length) h.trimmed
  simp only [trim,trimEnd,trimStart,String.toList_ofList] at htrim
  refine (List.dropWhile_suffix isWhitespace).eq_of_length (le_antisymm ?_ ?_)
  · exact (List.dropWhile_suffix isWhitespace).length_le
  · exact htrim ▸ (List.rdropWhile_prefix isWhitespace _).length_le

theorem trimEnd_eq (h : OneLine text) : text.toList.rdropWhile isWhitespace = text.toList := by
  have htrim := congrArg String.toList h.trimmed
  simp only [trim,trimEnd,trimStart,String.toList_ofList] at htrim
  rwa [h.trimStart_eq] at htrim

/-- A field's value is read back from its line. -/
theorem trim_value (h : OneLine text) : trim (trimEnd (" " ++ text)) = text := by
  have hend : (" " ++ text).toList.rdropWhile isWhitespace =
      if text.toList.isEmpty then [] else ' ' :: text.toList := by
    rw [String.toList_append,rdropWhile_append,h.trimEnd_eq]
    rfl
  rw [trim,trimStart,trimEnd,trimEnd,String.toList_ofList,String.toList_ofList,hend]
  split
  · next hempty =>
    refine String.toList_inj.mp ?_
    rw [List.isEmpty_iff.mp hempty,String.toList_ofList]
    rfl
  · have hstart : (' ' :: text.toList).dropWhile isWhitespace = text.toList := by
      rw [List.dropWhile_cons_of_pos rfl,h.trimStart_eq]
    rw [hstart,h.trimEnd_eq,String.ofList_toList]

end OneLine

/-! ## Fields -/

theorem stripPrefix_append (p t : String) : stripPrefix (p ++ t) p = some t := by
  rw [stripPrefix,Option.map_eq_some_iff]
  refine ⟨t.toList,?_,String.ofList_toList⟩
  rw [List.dropPrefix?_eq_some_iff]
  exact ⟨p.toList,String.toList_append,beq_self_eq_true _⟩

/-- A key has no white space at either end. -/
structure Key (key : String) : Prop where
  head : ∃ c l, key.toList = c :: l ∧ isWhitespace c = false
  last : key.toList.rdropWhile isWhitespace = key.toList

theorem Key.trim_append {key : String} (h : Key key) (t : String) :
    trim (key ++ t) = key ++ trimEnd t := by
  obtain ⟨c,l,hkey,hc⟩ := h.head
  have hstart : trimStart (key ++ t) = key ++ t := by
    rw [trimStart,String.toList_append,hkey,List.cons_append,
      List.dropWhile_cons_of_neg (by rw [hc]; exact Bool.false_ne_true),← List.cons_append,← hkey,
      ← String.toList_append,String.ofList_toList]
  refine String.toList_inj.mp ?_
  rw [trim,hstart,trimEnd,trimEnd,String.toList_ofList,String.toList_append,
    rdropWhile_append_of_eq _ h.last,String.toList_append,String.toList_ofList]

theorem Key.name : Key "name:" := ⟨⟨_,_,rfl,rfl⟩,rfl⟩

theorem Key.description : Key "description:" := ⟨⟨_,_,rfl,rfl⟩,rfl⟩

namespace Fields
variable {fields : Fields} {value : String}

theorem read_name (h : OneLine value) :
    fields.read ("name:" ++ (" " ++ value)) = { fields with name := some value } := by
  unfold read
  simp only [Key.name.trim_append,stripPrefix_append,h.trim_value]

theorem stripPrefix_description (t : String) : stripPrefix ("description:" ++ t) "name:" = none := by
  rw [stripPrefix,String.toList_append]
  rfl

theorem read_description (h : OneLine value) :
    fields.read ("description:" ++ (" " ++ value)) = { fields with description := some value } := by
  unfold read
  simp only [Key.description.trim_append,stripPrefix_description,stripPrefix_append,
    h.trim_value]

theorem read_type (h : value ∈ memoryTypes) : fields.read ("type: " ++ value) = fields := by
  have hnone : stripPrefix (trim ("type: " ++ value)) "name:" = none ∧
      stripPrefix (trim ("type: " ++ value)) "description:" = none := by
    revert value
    decide
  unfold read
  simp only [hnone]

theorem read_blank : fields.read "" = fields := rfl

end Fields

/-! ## The frontmatter of a rendered file -/

section Before
variable {pat : List Char}

theorem before_append {l : List Char} (h : '\n' ∉ l) (r : List Char) :
    before ('\n' :: pat) (l ++ r) = (before ('\n' :: pat) r).map (l ++ ·) := by
  induction l with
  | nil => exact (Option.map_id_apply).symm
  | cons c l ih =>
    rw [List.mem_cons,not_or] at h
    rw [List.cons_append,before,if_neg (by simp [h.1]),ih h.2,Option.map_map]
    rfl

theorem before_newline {r : List Char} (h : pat.isPrefixOf r = false) :
    before ('\n' :: pat) ('\n' :: r) = (before ('\n' :: pat) r).map ('\n' :: ·) := by
  rw [before,if_neg]
  simp [h]

theorem before_self (r : List Char) : before ('\n' :: pat) ('\n' :: (pat ++ r)) = some [] := by
  rw [before,if_pos]
  simp

end Before

theorem renderMemoryFile_toList (name description kind content : String) :
    (renderMemoryFile name description kind content).toList = '-' :: '-' :: '-' ::
      '\n' :: (("name:" ++ (" " ++ name)).toList ++
        '\n' :: (("description:" ++ (" " ++ description)).toList ++
          '\n' :: (("type: " ++ kind).toList ++
            '\n' :: ("---".toList ++ ("\n\n" ++ trimEnd content ++ "\n").toList)))) := by
  unfold renderMemoryFile
  simp only [String.toList_append,List.append_assoc]
  rfl


section Render
variable {name description kind content : String}

/-- The lines of a rendered frontmatter but the last: an empty one and two fields. -/
def fieldLines (name description : String) : List String :=
  ["","name:" ++ (" " ++ name),"description:" ++ (" " ++ description)]

theorem type_unbroken (h : kind ∈ memoryTypes) : '\n' ∉ ("type: " ++ kind).toList := by
  revert kind
  decide

theorem type_ne_nil (h : kind ∈ memoryTypes) : ("type: " ++ kind).toList ≠ [] := by
  revert kind
  decide

theorem unbroken_append {key value : String} (hkey : '\n' ∉ key.toList) (h : OneLine value) :
    '\n' ∉ (key ++ (" " ++ value)).toList := by
  rw [String.toList_append,String.toList_append,List.mem_append,List.mem_append]
  rintro (h' | h' | h')
  · exact hkey h'
  · exact absurd h' (by decide)
  · exact h.unbroken h'

theorem before_render (hname : OneLine name) (hdescription : OneLine description)
    (hkind : kind ∈ memoryTypes) :
    before "\n---".toList ((renderMemoryFile name description kind content).toList.drop 3) =
      some (['\n'].intercalate
        ((fieldLines name description ++ ["type: " ++ kind]).map String.toList)) := by
  have hpat : "\n---".toList = '\n' :: "---".toList := rfl
  rw [renderMemoryFile_toList,hpat]
  simp only [List.drop_succ_cons,List.drop_zero]
  have hname' : '\n' ∉ ("name:" ++ (" " ++ name)).toList := unbroken_append (by decide) hname
  have hdescription' : '\n' ∉ ("description:" ++ (" " ++ description)).toList :=
    unbroken_append (by decide) hdescription
  rw [before_newline (by rw [String.toList_append]; rfl),before_append hname',
    before_newline (by rw [String.toList_append]; rfl),before_append hdescription',
    before_newline (by rw [String.toList_append]; rfl),before_append (type_unbroken hkind),
    before_self]
  simp [fieldLines]

theorem withoutReturn_field {key value : String} (h : OneLine value) :
    withoutReturn (key ++ (" " ++ value)).toList = (key ++ (" " ++ value)).toList := by
  refine if_neg ?_
  rw [String.toList_append,String.toList_append,List.getLast?_append,List.getLast?_append]
  intro hlast
  cases hvalue : value.toList.getLast? with
  | none =>
    rw [hvalue] at hlast
    cases hlast
  | some c =>
    rw [hvalue] at hlast
    cases hlast
    have hne : value.toList ≠ [] := List.getLast?_isSome.mp (by rw [hvalue]; rfl)
    rw [List.getLast?_eq_some_getLast hne,Option.some.injEq] at hvalue
    have hwhite := List.rdropWhile_eq_self_iff.mp h.trimEnd_eq hne
    rw [hvalue] at hwhite
    exact hwhite rfl

theorem lines_intercalate {init : List String} {last : String} (hlast : last.toList ≠ [])
    (hunbroken : ∀ line ∈ init ++ [last], '\n' ∉ line.toList)
    (hreturn : ∀ line ∈ init, withoutReturn line.toList = line.toList) :
    lines (.ofList (['\n'].intercalate ((init ++ [last]).map String.toList))) =
      init ++ [last] := by
  have hparts : (init ++ [last]).map String.toList = init.map String.toList ++ [last.toList] :=
    List.map_append
  have hsplit : (['\n'].intercalate ((init ++ [last]).map String.toList)).splitOn '\n' =
      (init ++ [last]).map String.toList :=
    List.splitOn_intercalate '\n' (List.forall_mem_map.mpr hunbroken)
      (by rw [hparts]; exact List.concat_ne_nil _ _)
  have hinit : (init.map String.toList).map withoutReturn = init.map String.toList := by
    rw [List.map_map]
    exact List.map_congr_left hreturn
  rw [lines,String.toList_ofList,hsplit,hparts,List.dropLast_concat,List.getLast?_concat,
    Option.getD_some,List.isEmpty_eq_false_iff.mpr hlast,hinit]
  simp

theorem lines_render (hname : OneLine name) (hdescription : OneLine description)
    (hkind : kind ∈ memoryTypes) :
    lines (.ofList (['\n'].intercalate
        ((fieldLines name description ++ ["type: " ++ kind]).map String.toList))) =
      fieldLines name description ++ ["type: " ++ kind] := by
  refine lines_intercalate (type_ne_nil hkind) ?_ ?_
  · simp only [fieldLines,List.cons_append,List.nil_append,List.forall_mem_cons]
    exact ⟨List.not_mem_nil,unbroken_append (by decide) hname,
      unbroken_append (by decide) hdescription,type_unbroken hkind,List.forall_mem_nil _⟩
  · simp only [fieldLines,List.forall_mem_cons]
    exact ⟨rfl,withoutReturn_field hname,withoutReturn_field hdescription,List.forall_mem_nil _⟩

/-- What a file shows in the index is what was saved. -/
theorem parseFrontmatter_render (hname : OneLine name) (hdescription : OneLine description)
    (hkind : kind ∈ memoryTypes) :
    parseFrontmatter (renderMemoryFile name description kind content) =
      some ⟨"",name,description⟩ := by
  have hstart : trimStart (renderMemoryFile name description kind content) =
      renderMemoryFile name description kind content := by
    rw [trimStart,renderMemoryFile_toList,List.dropWhile_cons_of_neg (by decide),
      ← renderMemoryFile_toList,String.ofList_toList]
  have hdashes : startsWith (renderMemoryFile name description kind content) "---" = true := by
    rw [startsWith,renderMemoryFile_toList]
    rfl
  simp only [parseFrontmatter,hstart,hdashes,if_true,before_render hname hdescription hkind,
    readFields,lines_render hname hdescription hkind]
  simp only [fieldLines,List.foldl_append,List.foldl_cons,List.foldl_nil,Fields.read_blank,
    Fields.read_name hname,Fields.read_description hdescription,Fields.read_type hkind]
  rfl

end Render

/-! ## What can be read back -/

theorem rdropWhile_dropWhile_idem {α : Type*} (p : α → Bool) (l : List α) :
    ((l.dropWhile p).rdropWhile p).dropWhile p = (l.dropWhile p).rdropWhile p := by
  cases hkept : (l.dropWhile p).rdropWhile p with
  | nil => rfl
  | cons x xs =>
    have hprefix : x :: xs <+: l.dropWhile p := by
      rw [← hkept]
      exact List.rdropWhile_prefix p _
    obtain ⟨rest,hrest⟩ := hprefix
    have hne : l.dropWhile p ≠ [] := by
      rw [← hrest]
      exact List.cons_ne_nil _ _
    have hx := List.head_dropWhile_not p hne
    simp only [← hrest,List.cons_append,List.head_cons] at hx
    exact List.dropWhile_cons_of_neg (by rw [hx]; exact Bool.false_ne_true)

theorem mem_of_mem_trim {c : Char} {text : String} (h : c ∈ (trim text).toList) :
    c ∈ text.toList := by
  simp only [trim,trimEnd,trimStart,String.toList_ofList] at h
  exact List.dropWhile_subset _ ((List.rdropWhile_prefix _ _).subset h)

theorem OneLine.of_trim {text : String} (h : '\n' ∉ text.toList) : OneLine (trim text) where
  trimmed := by
    refine String.toList_inj.mp ?_
    simp only [trim,trimEnd,trimStart,String.toList_ofList,rdropWhile_dropWhile_idem,
      List.rdropWhile_idempotent]
  unbroken := fun hmem => h (mem_of_mem_trim hmem)

theorem mem_of_mem_stripPrefix {c : Char} {s p t : String} (hs : stripPrefix s p = some t)
    (h : c ∈ t.toList) : c ∈ s.toList := by
  obtain ⟨l,hl,rfl⟩ := Option.map_eq_some_iff.mp hs
  obtain ⟨p',hp',_⟩ := List.dropPrefix?_eq_some_iff.mp hl
  rw [String.toList_ofList] at h
  rw [hp']
  exact List.mem_append_right _ h

theorem unbroken_of_mem_lines {text line : String} (h : line ∈ lines text) :
    '\n' ∉ line.toList := by
  unfold lines at h
  obtain ⟨l,hl,rfl⟩ := List.mem_map.mp h
  rw [String.toList_ofList]
  rcases List.mem_append.mp hl with hl | hl
  · obtain ⟨part,hpart,rfl⟩ := List.mem_map.mp hl
    have hunbroken := notMem_of_mem_splitOn (List.dropLast_subset _ hpart)
    unfold withoutReturn
    split
    · exact fun hmem => hunbroken (List.dropLast_subset _ hmem)
    · exact hunbroken
  · split at hl
    · cases hl
    · next hlast =>
      rw [List.mem_singleton] at hl
      subst hl
      cases hparts : (text.toList.splitOn '\n').getLast? with
      | none => exact List.not_mem_nil
      | some last => exact notMem_of_mem_splitOn (List.mem_of_getLast? hparts)

/-- Only values in one line have been read. -/
structure Fields.OneLines (fields : Fields) : Prop where
  name : ∀ value, fields.name = some value → OneLine value
  description : ∀ value, fields.description = some value → OneLine value

theorem Fields.OneLines.read {fields : Fields} (h : fields.OneLines) {line : String}
    (hline : '\n' ∉ line.toList) : (fields.read line).OneLines := by
  have hvalue : ∀ {key value : String}, stripPrefix (trim line) key = some value →
      OneLine (trim value) := by
    intro key value hstrip
    exact .of_trim (fun hmem => hline (mem_of_mem_trim (mem_of_mem_stripPrefix hstrip hmem)))
  unfold Fields.read
  dsimp only
  split
  · next hstrip =>
    exact ⟨fun _ heq => Option.some.inj heq ▸ hvalue hstrip,h.description⟩
  · next hstrip =>
    exact ⟨h.name,fun _ heq => Option.some.inj heq ▸ hvalue hstrip⟩
  · exact h

theorem Fields.OneLines.foldl {ls : List String} (hls : ∀ line ∈ ls, '\n' ∉ line.toList)
    {fields : Fields} (h : fields.OneLines) : (ls.foldl Fields.read fields).OneLines := by
  induction ls generalizing fields with
  | nil => exact h
  | cons line ls ih =>
    obtain ⟨hline,hls⟩ := List.forall_mem_cons.mp hls
    rw [List.foldl_cons]
    exact ih hls (h.read hline)

theorem readFields_oneLines (frontmatter : String) : (readFields frontmatter).OneLines := by
  have hnew : Fields.OneLines {} := ⟨nofun,nofun⟩
  unfold readFields
  exact hnew.foldl (fun _ => unbroken_of_mem_lines)

theorem OneLine.empty : OneLine "" := ⟨rfl,List.not_mem_nil⟩

theorem Fields.OneLines.getD_description {fields : Fields} (h : fields.OneLines) :
    OneLine (fields.description.getD "") := by
  cases hdescription : fields.description with
  | none => exact OneLine.empty
  | some description => exact h.description description hdescription

/-- An index never shows more than one line without white space around it. -/
theorem parseFrontmatter_oneLine {text : String} {e : MemoryEntry}
    (h : parseFrontmatter text = some e) : OneLine e.name ∧ OneLine e.description := by
  unfold parseFrontmatter at h
  dsimp only at h
  split at h
  · split at h
    · cases h
    · next frontmatter _ =>
      have hlines := readFields_oneLines (.ofList frontmatter)
      obtain ⟨name,hname,rfl⟩ := Option.map_eq_some_iff.mp h
      exact ⟨hlines.name name hname,hlines.getD_description⟩
  · cases h

/-- A file shows its name and description exactly when both are such lines. -/
theorem parseFrontmatter_render_iff {name description kind content : String}
    (hkind : kind ∈ memoryTypes) :
    parseFrontmatter (renderMemoryFile name description kind content) =
      some ⟨"",name,description⟩ ↔ OneLine name ∧ OneLine description :=
  ⟨parseFrontmatter_oneLine,fun h => parseFrontmatter_render h.1 h.2 hkind⟩

/-! ## Slugs -/

def fileName (slug : String) : String := slug ++ ".md"

def indexName : String := "MEMORY.md"

/-- In a slug there are no dots and no capital letters. -/
def SlugChar (c : Char) : Prop := c ≠ '.' ∧ c.isUpper = false

instance : DecidablePred SlugChar := fun _ => inferInstanceAs (Decidable (_ ∧ _))

theorem slugChar_toLower {c : Char} (h : c.isAlphanum ∨ c = '_' ∨ c = '-') :
    SlugChar c.toLower := by
  have hascii : c.toNat < 128 := by
    rcases h with h | rfl | rfl
    · change (decide (c.val ≥ 'A'.val ∧ c.val ≤ 'Z'.val) || (c.val ≥ 'a'.val && c.val ≤ 'z'.val) ||
        (c.val ≥ '0'.val && c.val ≤ '9'.val)) = true at h
      simp [UInt32.le_iff_toNat_le] at h
      omega
    · decide
    · decide
  have hall : ∀ n < 128, (Char.ofNat n).isAlphanum ∨ Char.ofNat n = '_' ∨ Char.ofNat n = '-' →
      SlugChar (Char.ofNat n).toLower := by decide
  have hc := hall c.toNat hascii
  rw [Char.ofNat_toNat] at hc
  exact hc h

theorem slugChar_slugify {name : String} {c : Char} (h : c ∈ (slugify name).toList) :
    SlugChar c := by
  rw [slugify,String.toList_ofList] at h
  have hmem := List.dropWhile_subset _ ((List.rdropWhile_prefix _ _).subset h)
  obtain ⟨d,_,hd⟩ := List.mem_filterMap.mp hmem
  unfold slugChar at hd
  split at hd
  · next hkept =>
    cases hd
    refine slugChar_toLower ?_
    simpa [or_assoc] using hkept
  · split at hd
    · cases hd
      decide
    · cases hd

theorem fileName_ne_indexName (name : String) : fileName (slugify name) ≠ indexName := by
  intro h
  have hupper : 'M' ∈ (fileName (slugify name)).toList := by
    rw [h]
    decide
  rw [fileName,String.toList_append,List.mem_append] at hupper
  rcases hupper with hupper | hupper
  · exact absurd (slugChar_slugify hupper).2 (by decide)
  · exact absurd hupper (by decide)

/-- `trim_end_matches(".md")`, from the end of the name -/
def dropExtensions : List Char → List Char
  | 'd' :: 'm' :: '.' :: l => dropExtensions l
  | l => l

def slugOf (file : String) : String := .ofList (dropExtensions file.toList.reverse).reverse

/-- The extension is `md`; a name that only has a leading dot has none. -/
def isMemoryFile (file : String) : Bool :=
  match stripSuffix file ".md" with
  | none => false
  | some stem => stem ≠ "" && file ≠ indexName

theorem dropExtensions_of_notMem {l : List Char} (h : '.' ∉ l) : dropExtensions l = l := by
  unfold dropExtensions
  split
  · exact absurd (.tail _ (.tail _ (.head _))) h
  · rfl

theorem slugOf_fileName (name : String) : slugOf (fileName (slugify name)) = slugify name := by
  have hdot : '.' ∉ (slugify name).toList.reverse := by
    rw [List.mem_reverse]
    exact fun h => (slugChar_slugify h).1 rfl
  have hreverse : (fileName (slugify name)).toList.reverse =
      'd' :: 'm' :: '.' :: (slugify name).toList.reverse := by
    unfold fileName
    have hmd : ".md".toList.reverse = ['d','m','.'] := by decide
    rw [String.toList_append,List.reverse_append,hmd,List.cons_append,List.cons_append,
      List.cons_append,List.nil_append]
  unfold slugOf
  rw [hreverse,dropExtensions,dropExtensions_of_notMem hdot,List.reverse_reverse,
    String.ofList_toList]

theorem isMemoryFile_fileName {name : String} (h : slugify name ≠ "") :
    isMemoryFile (fileName (slugify name)) = true := by
  have hstem : stripSuffix (fileName (slugify name)) ".md" = some (slugify name) :=
    stripSuffix_eq_some.mpr rfl
  simp [isMemoryFile,hstem,h,fileName_ne_indexName]

theorem fileName_injective : Function.Injective fileName := by
  intro a b h
  unfold fileName at h
  exact (String.append_left_inj _).mp h

end Rullama.Memory
