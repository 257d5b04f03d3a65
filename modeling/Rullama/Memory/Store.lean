import Rullama.Memory.Frontmatter
import Rullama.Transition.Machine
import Mathlib.Data.List.AList
import Mathlib.Data.String.Basic
import Mathlib.Logic.Function.Basic

/-! # The memories of the projects

Every project has a directory of memory files and an index over them that is rebuilt from the
files at each change. Beside the directories stands what has been saved and not deleted, by
project and name.
-/
namespace Rullama.Memory
open Transition

/-- `encode_cwd_for_projects`: the directory that keeps a project's memories -/
def encodeCwd (cwd : String) : String :=
  .ofList ((cwd.toList.map (fun c => if c = '\\' then '/' else c)).map
    (fun c => if c = '/' then '-' else c))

/-- Contents by file name. -/
abbrev Directory := AList (fun _ : String => String)

/-! ## The index -/

def entryOf (file content : String) : Option MemoryEntry :=
  if isMemoryFile file then
    (parseFrontmatter content).map (fun e => { e with slug := slugOf file })
  else none

def collect (entries : AList (fun _ : String => MemoryEntry)) (file : Sigma (fun _ : String => String)) :
    AList (fun _ : String => MemoryEntry) :=
  match entryOf file.1 file.2 with
  | none => entries
  | some e => entries.insert e.slug e

/-- The entries by slug, in the order of the slugs. -/
def Directory.memoryEntries (files : Directory) : List MemoryEntry :=
  ((files.entries.foldl collect ∅).entries.map Sigma.snd).mergeSort
    (fun a b => decide (a.slug ≤ b.slug))

def MemoryEntry.line (e : MemoryEntry) : String :=
  "- [" ++ e.name ++ "](" ++ e.slug ++ ".md) — " ++ e.description ++ "\n"

def indexText (entries : List MemoryEntry) : String :=
  "# Memory Index\n\n" ++
    if entries.isEmpty then
      "_No memories stored yet. Agents can add entries via the `memory_save` tool._\n"
    else String.join (entries.map MemoryEntry.line)

/-! ## The tools -/

structure SaveArgs where
  name : String
  type : String
  description : String
  content : String
deriving DecidableEq

inductive Reply where
  | saved (name directory file : String)
  | deleted (existed : Bool) (name : String)
  | index (contents : String)
deriving DecidableEq

abbrev Directories := String → Directory

/-- `rewrite_index`, of which making the directory and writing the index can fail -/
def rewriteIndex (dirs : Directories) (cwd : String) (indexed : Except String Unit) :
    Directories × Except String Unit :=
  match indexed with
  | .error e => (dirs,.error e)
  | .ok () =>
    let files := dirs (encodeCwd cwd)
    (Function.update dirs (encodeCwd cwd) (files.insert indexName (indexText files.memoryEntries)),
      .ok ())

def doSave (dirs : Directories) (cwd : String) (args : Except String SaveArgs)
    (prepared written indexed : Except String Unit) : Directories × Except String Reply :=
  match args with
  | .error e => (dirs,.error ("invalid memory_save input: " ++ e))
  | .ok args =>
    if args.type ∉ memoryTypes then
      (dirs,.error ("type must be one of [\"user\", \"feedback\", \"project\", \"reference\"], got '" ++
        args.type ++ "'"))
    else if slugify args.name = "" then
      (dirs,.error "name must contain at least one alphanumeric character")
    else
      match prepared, written with
      | .error e, _ => (dirs,.error ("failed to prepare memory dir: " ++ e))
      | .ok (), .error e => (dirs,.error ("failed to write memory: " ++ e))
      | .ok (), .ok () =>
        let file := fileName (slugify args.name)
        let body := renderMemoryFile args.name args.description args.type args.content
        let dirs := Function.update dirs (encodeCwd cwd) ((dirs (encodeCwd cwd)).insert file body)
        match rewriteIndex dirs cwd indexed with
        | (dirs,.error e) => (dirs,.error ("failed to rewrite MEMORY.md: " ++ e))
        | (dirs,.ok ()) => (dirs,.ok (.saved args.name (encodeCwd cwd) file))

/-- The file is only removed where it exists. -/
def doDelete (dirs : Directories) (cwd : String) (args : Except String String)
    (located removed indexed : Except String Unit) : Directories × Except String Reply :=
  match args, located with
  | .error e, _ => (dirs,.error ("invalid memory_delete input: " ++ e))
  | .ok _, .error e => (dirs,.error ("failed to locate memory dir: " ++ e))
  | .ok name, .ok () =>
    let file := fileName (slugify name)
    let existed := ((dirs (encodeCwd cwd)).lookup file).isSome
    match existed, removed with
    | true, .error e => (dirs,.error ("failed to delete memory: " ++ e))
    | _, _ =>
      let dirs := Function.update dirs (encodeCwd cwd) ((dirs (encodeCwd cwd)).erase file)
      match rewriteIndex dirs cwd indexed with
      | (dirs,.error e) => (dirs,.error ("failed to rewrite MEMORY.md: " ++ e))
      | (dirs,.ok ()) => (dirs,.ok (.deleted existed name))

def doList (dirs : Directories) (cwd : String) (located : Except String Unit) :
    Except String Reply :=
  match located with
  | .error e => .error ("failed to locate memory index: " ++ e)
  | .ok () => .ok (.index (((dirs (encodeCwd cwd)).lookup indexName).getD ""))

/-! ## What has been saved -/

structure ProjectMemory where
  cwd : String
  name : String
  kind : String
  description : String
  content : String
deriving DecidableEq

namespace ProjectMemory
variable (m : ProjectMemory)

def key : String × String := (m.cwd,m.name)

def directory : String := encodeCwd m.cwd

def slug : String := slugify m.name

def file : String := fileName m.slug

def body : String := renderMemoryFile m.name m.description m.kind m.content

def entry : MemoryEntry := ⟨m.slug,m.name,m.description⟩

end ProjectMemory

structure Memories where
  dirs : Directories := fun _ => ∅
  live : List ProjectMemory := []

inductive MemoryCall where
  | save (cwd : String) (args : Except String SaveArgs) (prepared written indexed : Except String Unit)
  | delete (cwd : String) (args : Except String String)
      (located removed indexed : Except String Unit)
  | list (cwd : String) (located : Except String Unit)

/-- The memory that a call saves: its type is valid, and its file can be written. -/
def MemoryCall.saved : MemoryCall → Option ProjectMemory
  | .save cwd (.ok args) (.ok _) (.ok _) _ =>
    if args.type ∈ memoryTypes then
      some ⟨cwd,args.name,args.type,args.description,args.content⟩
    else none
  | _ => none

/-- The project and name that a call deletes. -/
def MemoryCall.deleted : MemoryCall → Option (String × String)
  | .delete cwd (.ok name) (.ok _) (.ok _) _ => some (cwd,name)
  | _ => none

namespace Memories
variable (s : Memories)

def call : MemoryCall → Directories × Except String Reply
  | .save cwd args prepared written indexed => doSave s.dirs cwd args prepared written indexed
  | .delete cwd args located removed indexed => doDelete s.dirs cwd args located removed indexed
  | .list cwd located => (s.dirs,doList s.dirs cwd located)

def without (key : String × String) : List ProjectMemory := s.live.filter (fun m => m.key ≠ key)

/-- A memory is live from its save to its deletion or the next save under its name. -/
def keep (e : MemoryCall) : List ProjectMemory :=
  match e.saved, e.deleted with
  | some m, _ => m :: s.without m.key
  | none, some key => s.without key
  | none, none => s.live

def next (e : MemoryCall) : Memories := ⟨(s.call e).1,s.keep e⟩

def ofProject (cwd : String) : List ProjectMemory := s.live.filter (fun m => m.cwd = cwd)

/-- Besides the index, the files are those of the live memories. -/
def Held : Prop := ∀ dir file content, file ≠ indexName →
  ((s.dirs dir).lookup file = some content ↔
    ∃ m ∈ s.live, m.directory = dir ∧ m.file = file ∧ m.body = content)

/-- No memory of another name or project has the file. -/
def Apart (cwd name : String) : Prop :=
  ∀ m ∈ s.live, m.directory = encodeCwd cwd → m.slug = slugify name → m.key = (cwd,name)

/-- What is saved has a slug, and its name and description are lines without white space around
them; the file that is written or removed is of no other memory, and the index is rewritten; the
directory that is listed has no memory of another project. -/
def Clear : MemoryCall → Prop
  | .save cwd args prepared written indexed =>
    ∀ m, (MemoryCall.save cwd args prepared written indexed).saved = some m →
      m.slug ≠ "" ∧ OneLine m.name ∧ OneLine m.description ∧ s.Apart cwd m.name ∧ indexed = .ok ()
  | .delete cwd args located removed indexed =>
    ∀ key, (MemoryCall.delete cwd args located removed indexed).deleted = some key →
      s.Apart cwd key.2 ∧ indexed = .ok ()
  | .list cwd _ => ∀ m ∈ s.live, m.directory = encodeCwd cwd → m.cwd = cwd

end Memories

/-- There is one entry for each of the memories, with its name and description; before the
first change there is no index. -/
def Indexes (text : String) (memories : List ProjectMemory) : Prop :=
  text = "" ∧ memories = [] ∨ ∃ entries : List MemoryEntry, text = indexText entries ∧
    (entries.map (fun e => e.name)).Nodup ∧
      (entries.map (fun e => (e.name,e.description))).Perm
        (memories.map (fun m => (m.name,m.description)))

/-- After the call the files are those of the live memories, and a list shows those of its
project. -/
def Memories.Served (s : Memories) (e : MemoryCall) : Prop :=
  (s.next e).Held ∧ ∀ cwd located text, e = .list cwd located →
    doList s.dirs cwd located = .ok (.index text) → Indexes text (s.ofProject cwd)

def memoryStore : Machine Memories MemoryCall where
  enabled := fun _ _ => True
  next := Memories.next

/-! ## Collecting the entries -/

section Collect
variable {files : List (Sigma (fun _ : String => String))}
  {entries : AList (fun _ : String => MemoryEntry)} {slug : String} {e : MemoryEntry}

theorem lookup_collect (f : Sigma (fun _ : String => String)) :
    (collect entries f).lookup slug = some e ↔
      entryOf f.1 f.2 = some e ∧ e.slug = slug ∨
        entries.lookup slug = some e ∧ ∀ e', entryOf f.1 f.2 = some e' → e'.slug ≠ slug := by
  unfold collect
  cases hentry : entryOf f.1 f.2 with
  | none => simp
  | some e' =>
    by_cases hslug : e'.slug = slug
    · subst hslug
      simp only [AList.lookup_insert,Option.some.injEq]
      constructor
      · rintro rfl
        exact .inl ⟨rfl,rfl⟩
      · rintro (⟨h,_⟩ | ⟨_,h⟩)
        · exact h
        · exact absurd rfl (h e' rfl)
    · simp only [AList.lookup_insert_ne (Ne.symm hslug),Option.some.injEq]
      constructor
      · intro h
        refine .inr ⟨h,?_⟩
        rintro _ rfl
        exact hslug
      · rintro (⟨rfl,h⟩ | ⟨h,_⟩)
        · exact absurd h hslug
        · exact h

theorem lookup_collect_sound (h : (files.foldl collect entries).lookup slug = some e) :
    entries.lookup slug = some e ∨
      ∃ f ∈ files, entryOf f.1 f.2 = some e ∧ e.slug = slug := by
  induction files generalizing entries with
  | nil => exact .inl h
  | cons f files ih =>
    rcases ih h with h | ⟨g,hg,hentry⟩
    · rcases (lookup_collect f).mp h with h | ⟨h,_⟩
      · exact .inr ⟨f,.head _,h⟩
      · exact .inl h
    · exact .inr ⟨g,.tail _ hg,hentry⟩

/-- Where no other file has the slug, its entry is collected. -/
theorem lookup_collect_complete
    (hunique : ∀ f ∈ files, ∀ e', entryOf f.1 f.2 = some e' → e'.slug = slug → e' = e)
    (h : entries.lookup slug = some e ∨ ∃ f ∈ files, entryOf f.1 f.2 = some e ∧ e.slug = slug) :
    (files.foldl collect entries).lookup slug = some e := by
  induction files generalizing entries with
  | nil =>
    rcases h with h | ⟨f,hf,_⟩
    · exact h
    · cases hf
  | cons f files ih =>
    rw [List.forall_mem_cons] at hunique
    refine ih hunique.2 ?_
    rw [lookup_collect]
    by_cases hf : entryOf f.1 f.2 = some e ∧ e.slug = slug
    · exact .inl (.inl hf)
    · have hother : ∀ e', entryOf f.1 f.2 = some e' → e'.slug ≠ slug := by
        intro e' he' hslug
        cases hunique.1 e' he' hslug
        exact hf ⟨he',hslug⟩
      rcases h with h | ⟨g,hg,hentry⟩
      · exact .inl (.inr ⟨h,hother⟩)
      · rcases List.mem_cons.mp hg with rfl | hg
        · exact absurd hentry hf
        · exact .inr ⟨g,hg,hentry⟩

end Collect

section Entries
variable {files : Directory} {e : MemoryEntry}

theorem mem_memoryEntries_iff :
    e ∈ files.memoryEntries ↔ ∃ slug, (files.entries.foldl collect ∅).lookup slug = some e := by
  unfold Directory.memoryEntries
  rw [List.mem_mergeSort,List.mem_map]
  constructor
  · rintro ⟨⟨slug,e⟩,he,rfl⟩
    exact ⟨slug,AList.mem_lookup_iff.mpr he⟩
  · rintro ⟨slug,he⟩
    exact ⟨⟨slug,e⟩,AList.mem_lookup_iff.mp he,rfl⟩

/-- No two entries have the same slug. -/
theorem nodup_memoryEntries : (files.memoryEntries.map (fun e => e.slug)).Nodup := by
  unfold Directory.memoryEntries
  rw [(List.Perm.map _ (List.mergeSort_perm _ _)).nodup_iff,List.map_map]
  have hkeys : ((files.entries.foldl collect ∅).entries.map ((fun e => e.slug) ∘ Sigma.snd)) =
      (files.entries.foldl collect ∅).keys := by
    refine List.map_congr_left ?_
    rintro ⟨slug,e⟩ he
    rcases lookup_collect_sound (AList.mem_lookup_iff.mpr he) with h | ⟨_,_,_,h⟩
    · rw [AList.lookup_empty] at h
      cases h
    · exact h
  rw [hkeys]
  exact AList.keys_nodup _

theorem mem_memoryEntries_of_unique
    (hunique : ∀ f ∈ files.entries, ∀ g ∈ files.entries, ∀ e e', entryOf f.1 f.2 = some e →
      entryOf g.1 g.2 = some e' → e.slug = e'.slug → e = e') :
    e ∈ files.memoryEntries ↔ ∃ f ∈ files.entries, entryOf f.1 f.2 = some e := by
  rw [mem_memoryEntries_iff]
  constructor
  · rintro ⟨slug,h⟩
    rcases lookup_collect_sound h with h | ⟨f,hf,hentry,_⟩
    · rw [AList.lookup_empty] at h
      cases h
    · exact ⟨f,hf,hentry⟩
  · rintro ⟨f,hf,hentry⟩
    refine ⟨e.slug,lookup_collect_complete ?_ (.inr ⟨f,hf,hentry,rfl⟩)⟩
    intro g hg e' he' hslug
    exact hunique g hg f hf e' e he' hentry hslug

end Entries

/-! ## What a sound store keeps -/

/-- A memory whose file shows its name and description. -/
structure ProjectMemory.Plain (m : ProjectMemory) : Prop where
  slug : m.slug ≠ ""
  name : OneLine m.name
  description : OneLine m.description
  kind : m.kind ∈ memoryTypes

namespace Memories

def Indexed (s : Memories) (dir : String) : Prop :=
  (s.dirs dir).lookup indexName = none ∧ (∀ m ∈ s.live, m.directory ≠ dir) ∨
    ∃ entries, (s.dirs dir).lookup indexName = some (indexText entries) ∧
      (entries.map (fun e => e.slug)).Nodup ∧
        ∀ e, e ∈ entries ↔ ∃ m ∈ s.live, m.directory = dir ∧ m.entry = e

/-- The files mirror the live memories, of which no two share a file. -/
structure Mirrored (s : Memories) : Prop where
  held : s.Held
  plain : ∀ m ∈ s.live, m.Plain
  apart : ∀ m ∈ s.live, ∀ m' ∈ s.live, m.directory = m'.directory → m.slug = m'.slug → m = m'
  nodup : s.live.Nodup

structure Sound (s : Memories) : Prop extends s.Mirrored where
  indexed : ∀ dir, s.Indexed dir

end Memories

theorem ProjectMemory.Plain.entryOf {m : ProjectMemory} (h : m.Plain) :
    entryOf m.file m.body = some m.entry := by
  have hfile : isMemoryFile m.file = true := isMemoryFile_fileName h.slug
  have hparse : parseFrontmatter m.body = some ⟨"",m.name,m.description⟩ :=
    parseFrontmatter_render h.name h.description h.kind
  have hslug : slugOf m.file = m.slug := slugOf_fileName m.name
  rw [Memory.entryOf,if_pos hfile,hparse,Option.map_some,hslug]
  rfl

theorem ProjectMemory.file_ne_indexName (m : ProjectMemory) : m.file ≠ indexName :=
  fileName_ne_indexName m.name

theorem ne_indexName_of_entryOf {file content : String} {e : MemoryEntry}
    (h : entryOf file content = some e) : file ≠ indexName := by
  rintro rfl
  cases h

namespace Memories
variable {s : Memories} {cwd dir : String}

/-- The entries collected in a directory are those of the live memories in it. -/
theorem Mirrored.mem_memoryEntries (h : s.Mirrored) (e : MemoryEntry) :
    e ∈ (s.dirs dir).memoryEntries ↔ ∃ m ∈ s.live, m.directory = dir ∧ m.entry = e := by
  have hfile : ∀ f ∈ (s.dirs dir).entries, ∀ e, entryOf f.1 f.2 = some e →
      ∃ m ∈ s.live, m.directory = dir ∧ m.entry = e := by
    rintro ⟨file,content⟩ hf e he
    obtain ⟨m,hm,hdir,rfl,rfl⟩ := (h.held dir file content (ne_indexName_of_entryOf he)).mp
      (AList.mem_lookup_iff.mpr hf)
    rw [(h.plain m hm).entryOf,Option.some.injEq] at he
    exact ⟨m,hm,hdir,he⟩
  rw [mem_memoryEntries_of_unique]
  · constructor
    · rintro ⟨f,hf,he⟩
      exact hfile f hf e he
    · rintro ⟨m,hm,hdir,rfl⟩
      have hlookup := (h.held dir m.file m.body m.file_ne_indexName).mpr ⟨m,hm,hdir,rfl,rfl⟩
      exact ⟨⟨m.file,m.body⟩,AList.mem_lookup_iff.mp hlookup,(h.plain m hm).entryOf⟩
  · intro f hf g hg e e' he he' hslug
    obtain ⟨m,hm,hdir,rfl⟩ := hfile f hf e he
    obtain ⟨m',hm',hdir',rfl⟩ := hfile g hg e' he'
    rw [h.apart m hm m' hm' (hdir.trans hdir'.symm) hslug]

/-- What is live elsewhere does not change with a directory. -/
theorem Indexed.congr {t : Memories} (h : s.Indexed dir) (hfiles : t.dirs dir = s.dirs dir)
    (hlive : ∀ m, m.directory = dir → (m ∈ t.live ↔ m ∈ s.live)) : t.Indexed dir := by
  rw [Indexed,hfiles]
  rcases h with ⟨hnone,hempty⟩ | ⟨entries,htext,hnodup,hentries⟩
  · refine .inl ⟨hnone,?_⟩
    intro m hm hdir
    exact hempty m ((hlive m hdir).mp hm) hdir
  · refine .inr ⟨entries,htext,hnodup,?_⟩
    intro e
    rw [hentries e]
    constructor
    · rintro ⟨m,hm,hdir,he⟩
      exact ⟨m,(hlive m hdir).mpr hm,hdir,he⟩
    · rintro ⟨m,hm,hdir,he⟩
      exact ⟨m,(hlive m hdir).mp hm,hdir,he⟩

/-- Writing the index leaves all other files alone. -/
theorem lookup_rewriteIndex {dirs : Directories} {file : String} (h : file ≠ indexName) :
    ((rewriteIndex dirs cwd (.ok ())).1 dir).lookup file = (dirs dir).lookup file := by
  simp only [rewriteIndex,Function.update_apply]
  split
  · next hdir =>
    subst hdir
    exact AList.lookup_insert_ne h
  · rfl

theorem Mirrored.rewriteIndex (h : s.Mirrored) :
    Mirrored ⟨(Memory.rewriteIndex s.dirs cwd (.ok ())).1,s.live⟩ where
  held := by
    intro dir file content hfile
    rw [lookup_rewriteIndex hfile]
    exact h.held dir file content hfile
  plain := h.plain
  apart := h.apart
  nodup := h.nodup

/-- A change in one directory is followed by writing its index. -/
theorem Mirrored.sound_rewriteIndex (h : s.Mirrored)
    (hindexed : ∀ dir, dir ≠ encodeCwd cwd → s.Indexed dir) :
    Sound ⟨(Memory.rewriteIndex s.dirs cwd (.ok ())).1,s.live⟩ where
  toMirrored := h.rewriteIndex
  indexed := by
    intro dir
    by_cases hdir : dir = encodeCwd cwd
    · subst hdir
      refine .inr ⟨_,?_,nodup_memoryEntries,h.mem_memoryEntries⟩
      simp only [Memory.rewriteIndex,Function.update_self,AList.lookup_insert]
    · have hsame : (Memory.rewriteIndex s.dirs cwd (.ok ())).1 dir = s.dirs dir :=
        Function.update_of_ne hdir _ _
      exact (hindexed dir hdir).congr hsame (fun _ _ => Iff.rfl)

theorem Sound.rewriteIndex (h : s.Sound) (indexed : Except String Unit) :
    Sound ⟨(Memory.rewriteIndex s.dirs cwd indexed).1,s.live⟩ := by
  cases indexed with
  | error e => exact h
  | ok => exact h.toMirrored.sound_rewriteIndex (fun dir _ => h.indexed dir)

theorem mem_without {key : String × String} {m : ProjectMemory} :
    m ∈ s.without key ↔ m ∈ s.live ∧ m.key ≠ key := by
  rw [without,List.mem_filter,decide_eq_true_eq]

/-- Only a memory under the key of another can share its file. -/
theorem mem_without_of_ne {key : String × String} {m : ProjectMemory}
    (h : m.directory = encodeCwd key.1 → m.file ≠ fileName (slugify key.2)) :
    m ∈ s.without key ↔ m ∈ s.live := by
  rw [mem_without,and_iff_left_iff_imp]
  rintro _ rfl
  exact h rfl rfl

/-- Where no name shares its slug, the file under a key is that of the key's memory. -/
theorem Apart.notMem_without {name : String} (h : s.Apart cwd name) {m : ProjectMemory}
    (hdir : m.directory = encodeCwd cwd) (hfile : m.file = fileName (slugify name)) :
    m ∉ s.without (cwd,name) := by
  intro hm
  obtain ⟨hlive,hkey⟩ := mem_without.mp hm
  exact hkey (h m hlive hdir (fileName_injective hfile))

theorem nodup_without (h : s.live.Nodup) (key : String × String) : (s.without key).Nodup :=
  h.filter _

/-! ### Saving -/

section Save
variable {m : ProjectMemory}

def write (s : Memories) (m : ProjectMemory) : Memories where
  dirs := Function.update s.dirs m.directory ((s.dirs m.directory).insert m.file m.body)
  live := m :: s.without m.key

theorem Mirrored.write (h : s.Mirrored) (hm : m.Plain) (hapart : s.Apart m.cwd m.name) :
    (s.write m).Mirrored where
  held := by
    intro dir file content hfile
    by_cases hplace : dir = m.directory ∧ file = m.file
    · obtain ⟨rfl,rfl⟩ := hplace
      simp only [Memories.write,Function.update_self,AList.lookup_insert,Option.some.injEq]
      constructor
      · rintro rfl
        exact ⟨m,.head _,rfl,rfl,rfl⟩
      · rintro ⟨m',hm',hdir',hfile',rfl⟩
        rcases List.mem_cons.mp hm' with rfl | hm'
        · rfl
        · exact absurd hm' (hapart.notMem_without hdir' hfile')
    · have hlookup : ((s.write m).dirs dir).lookup file = (s.dirs dir).lookup file := by
        simp only [Memories.write,Function.update_apply]
        split
        · next hdir =>
          subst hdir
          exact AList.lookup_insert_ne (fun hf => hplace ⟨rfl,hf⟩)
        · rfl
      rw [hlookup,h.held dir file content hfile]
      constructor
      · rintro ⟨m',hm',rfl,rfl,rfl⟩
        refine ⟨m',.tail _ ((mem_without_of_ne ?_).mpr hm'),rfl,rfl,rfl⟩
        exact fun hdir hf => hplace ⟨hdir,hf⟩
      · rintro ⟨m',hm',rfl,rfl,rfl⟩
        rcases List.mem_cons.mp hm' with rfl | hm'
        · exact absurd ⟨rfl,rfl⟩ hplace
        · exact ⟨m',(mem_without.mp hm').1,rfl,rfl,rfl⟩
  plain := by
    intro m' hm'
    rcases List.mem_cons.mp hm' with rfl | hm'
    · exact hm
    · exact h.plain m' (mem_without.mp hm').1
  apart := by
    have hother : ∀ m' ∈ s.without m.key, m'.directory = m.directory → m'.slug ≠ m.slug := by
      intro m' hm' hdir hslug
      exact hapart.notMem_without hdir (congrArg fileName hslug) hm'
    intro a ha b hb hdir hslug
    rcases List.mem_cons.mp ha with rfl | ha
    · rcases List.mem_cons.mp hb with rfl | hb
      · rfl
      · exact absurd hslug.symm (hother b hb hdir.symm)
    · rcases List.mem_cons.mp hb with rfl | hb
      · exact absurd hslug (hother a ha hdir)
      · exact h.apart a (mem_without.mp ha).1 b (mem_without.mp hb).1 hdir hslug
  nodup := by
    refine List.nodup_cons.mpr ⟨?_,nodup_without h.nodup m.key⟩
    exact hapart.notMem_without rfl rfl

theorem Sound.write (h : s.Sound) (hm : m.Plain) (hapart : s.Apart m.cwd m.name) :
    Sound ⟨(Memory.rewriteIndex (s.write m).dirs m.cwd (.ok ())).1,(s.write m).live⟩ := by
  refine (h.toMirrored.write hm hapart).sound_rewriteIndex ?_
  intro dir hdir
  refine (h.indexed dir).congr (Function.update_of_ne hdir _ _) ?_
  intro m' hm'
  constructor
  · intro hmem
    rcases List.mem_cons.mp hmem with rfl | hmem
    · exact absurd hm'.symm hdir
    · exact (mem_without.mp hmem).1
  · intro hmem
    refine .tail _ ((mem_without_of_ne ?_).mpr hmem)
    intro hdir'
    exact absurd (hm'.symm.trans hdir') hdir

end Save

/-! ### Deleting -/

section Delete
variable {name : String}

def remove (s : Memories) (cwd name : String) : Memories where
  dirs := Function.update s.dirs (encodeCwd cwd)
    ((s.dirs (encodeCwd cwd)).erase (fileName (slugify name)))
  live := s.without (cwd,name)

theorem Mirrored.remove (h : s.Mirrored) (hapart : s.Apart cwd name) :
    (s.remove cwd name).Mirrored where
  held := by
    intro dir file content hfile
    by_cases hplace : dir = encodeCwd cwd ∧ file = fileName (slugify name)
    · obtain ⟨rfl,rfl⟩ := hplace
      simp only [Memories.remove,Function.update_self,AList.lookup_erase]
      refine iff_of_false (fun hnone => by cases hnone) ?_
      rintro ⟨m',hm',hdir',hfile',_⟩
      exact hapart.notMem_without hdir' hfile' hm'
    · have hlookup : ((s.remove cwd name).dirs dir).lookup file = (s.dirs dir).lookup file := by
        simp only [Memories.remove,Function.update_apply]
        split
        · next hdir =>
          subst hdir
          exact AList.lookup_erase_ne (fun hf => hplace ⟨rfl,hf⟩)
        · rfl
      rw [hlookup,h.held dir file content hfile]
      constructor
      · rintro ⟨m',hm',rfl,rfl,rfl⟩
        refine ⟨m',(mem_without_of_ne ?_).mpr hm',rfl,rfl,rfl⟩
        exact fun hdir hf => hplace ⟨hdir,hf⟩
      · rintro ⟨m',hm',rfl,rfl,rfl⟩
        exact ⟨m',(mem_without.mp hm').1,rfl,rfl,rfl⟩
  plain := fun m' hm' => h.plain m' (mem_without.mp hm').1
  apart := fun a ha b hb => h.apart a (mem_without.mp ha).1 b (mem_without.mp hb).1
  nodup := nodup_without h.nodup (cwd,name)

theorem Sound.remove (h : s.Sound) (hapart : s.Apart cwd name) :
    Sound ⟨(Memory.rewriteIndex (s.remove cwd name).dirs cwd (.ok ())).1,
      (s.remove cwd name).live⟩ := by
  refine (h.toMirrored.remove hapart).sound_rewriteIndex ?_
  intro dir hdir
  refine (h.indexed dir).congr (Function.update_of_ne hdir _ _) ?_
  intro m' hm'
  refine mem_without_of_ne ?_
  intro hdir'
  exact absurd (hm'.symm.trans hdir') hdir

/-- Without the file a deletion takes nothing away. -/
theorem remove_dirs_of_none (h : (s.dirs (encodeCwd cwd)).lookup (fileName (slugify name)) = none) :
    (s.remove cwd name).dirs = s.dirs := by
  have herase : (s.dirs (encodeCwd cwd)).erase (fileName (slugify name)) =
      s.dirs (encodeCwd cwd) := by
    refine AList.ext (List.kerase_of_notMem_keys ?_)
    exact AList.lookup_eq_none.mp h
  rw [Memories.remove,herase,Function.update_eq_self]

end Delete

/-! ### One call -/

section Calls
variable {located removed prepared written indexed : Except String Unit}

/-- A save that is refused, or whose file cannot be written, changes nothing. -/
theorem next_save_of_none {args : Except String SaveArgs}
    (h : (MemoryCall.save cwd args prepared written indexed).saved = none) :
    s.next (.save cwd args prepared written indexed) = s := by
  have hkeep : s.keep (.save cwd args prepared written indexed) = s.live := by
    simp only [keep,h,MemoryCall.deleted]
  have hdirs : (doSave s.dirs cwd args prepared written indexed).1 = s.dirs := by
    unfold doSave
    cases args with
    | error e => rfl
    | ok args =>
      dsimp only
      split
      · rfl
      · next htype =>
        split
        · rfl
        · cases prepared with
          | error e => rfl
          | ok =>
            cases written with
            | error e => rfl
            | ok => simp [MemoryCall.saved,not_not.mp htype] at h
  rw [next,hkeep,call,hdirs]

theorem next_save_of_some {args : Except String SaveArgs} {m : ProjectMemory}
    (h : (MemoryCall.save cwd args prepared written (.ok ())).saved = some m) (hslug : m.slug ≠ "") :
    m.cwd = cwd ∧ m.kind ∈ memoryTypes ∧ s.next (.save cwd args prepared written (.ok ())) =
      ⟨(rewriteIndex (s.write m).dirs m.cwd (.ok ())).1,(s.write m).live⟩ := by
  have hkeep : s.keep (.save cwd args prepared written (.ok ())) = (s.write m).live := by
    simp only [keep,h,write]
  rw [next,hkeep]
  cases args with
  | error e => cases h
  | ok args =>
    cases prepared with
    | error e => cases h
    | ok =>
      cases written with
      | error e => cases h
      | ok =>
        simp only [MemoryCall.saved] at h
        split at h
        · next htype =>
          cases h
          refine ⟨rfl,htype,?_⟩
          have hdirs : (doSave s.dirs cwd (.ok args) (.ok ()) (.ok ()) (.ok ())).1 =
              (rewriteIndex (Function.update s.dirs (encodeCwd cwd)
                ((s.dirs (encodeCwd cwd)).insert (fileName (slugify args.name))
                  (renderMemoryFile args.name args.description args.type args.content)))
                cwd (.ok ())).1 := by
            unfold doSave
            dsimp only
            rw [if_neg (not_not.mpr htype),if_neg (show slugify args.name ≠ "" from hslug)]
            rfl
          rw [call,hdirs]
          rfl
        · cases h

theorem doDelete_removed {name : String} (removed indexed : Except String Unit)
    (h : removed = .ok () ∨ (s.dirs (encodeCwd cwd)).lookup (fileName (slugify name)) = none) :
    (doDelete s.dirs cwd (.ok name) (.ok ()) removed indexed).1 =
      (rewriteIndex (s.remove cwd name).dirs cwd indexed).1 := by
  unfold doDelete
  dsimp only
  split
  · next hexisted =>
    rcases h with h | h
    · cases h
    · rw [h] at hexisted
      cases hexisted
  · cases indexed <;> rfl

theorem doDelete_kept {name e : String} (indexed : Except String Unit) {content : String}
    (h : (s.dirs (encodeCwd cwd)).lookup (fileName (slugify name)) = some content) :
    (doDelete s.dirs cwd (.ok name) (.ok ()) (.error e) indexed).1 = s.dirs := by
  unfold doDelete
  dsimp only
  rw [h]
  rfl

theorem Sound.next_delete (h : s.Sound) {args : Except String String}
    (hclear : s.Clear (.delete cwd args located removed indexed)) :
    (s.next (.delete cwd args located removed indexed)).Sound := by
  cases args with
  | error e => exact h
  | ok name =>
    cases located with
    | error e => exact h
    | ok =>
      cases removed with
      | error e =>
        rw [next,call]
        cases hlookup : (s.dirs (encodeCwd cwd)).lookup (fileName (slugify name)) with
        | none =>
          rw [doDelete_removed _ _ (.inr hlookup),remove_dirs_of_none hlookup]
          exact h.rewriteIndex indexed
        | some content =>
          rw [doDelete_kept indexed hlookup]
          exact h
      | ok =>
        obtain ⟨hapart,rfl⟩ := hclear (cwd,name) rfl
        rw [next,call,doDelete_removed _ _ (.inl rfl)]
        exact h.remove hapart

theorem Sound.next_save (h : s.Sound) {args : Except String SaveArgs}
    (hclear : s.Clear (.save cwd args prepared written indexed)) :
    (s.next (.save cwd args prepared written indexed)).Sound := by
  cases hsaved : (MemoryCall.save cwd args prepared written indexed).saved with
  | none =>
    rw [next_save_of_none hsaved]
    exact h
  | some m =>
    obtain ⟨hslug,hname,hdescription,hapart,rfl⟩ := hclear m hsaved
    obtain ⟨rfl,hkind,hnext⟩ := next_save_of_some (s := s) hsaved hslug
    rw [hnext]
    exact h.write ⟨hslug,hname,hdescription,hkind⟩ hapart

end Calls

theorem Sound.next {e : MemoryCall} (h : s.Sound) (hclear : s.Clear e) : (s.next e).Sound := by
  cases e with
  | save cwd args prepared written indexed => exact h.next_save hclear
  | delete cwd args located removed indexed => exact h.next_delete hclear
  | list cwd located => exact h

/-- Where a project has its directory to itself, the index shows what is live in it. -/
theorem Sound.indexes (h : s.Sound) (howner : ∀ m ∈ s.live, m.directory = encodeCwd cwd → m.cwd = cwd) :
    Indexes (((s.dirs (encodeCwd cwd)).lookup indexName).getD "") (s.ofProject cwd) := by
  have hmem : ∀ m, m ∈ s.ofProject cwd ↔ m ∈ s.live ∧ m.directory = encodeCwd cwd := by
    intro m
    rw [ofProject,List.mem_filter,decide_eq_true_eq]
    constructor
    · rintro ⟨hm,rfl⟩
      exact ⟨hm,rfl⟩
    · rintro ⟨hm,hdir⟩
      exact ⟨hm,howner m hm hdir⟩
  rcases h.indexed (encodeCwd cwd) with ⟨hnone,hempty⟩ | ⟨entries,htext,hnodup,hentries⟩
  · refine .inl ⟨by rw [hnone]; rfl,List.eq_nil_iff_forall_not_mem.mpr ?_⟩
    intro m hm
    obtain ⟨hlive,hdir⟩ := (hmem m).mp hm
    exact hempty m hlive hdir
  · have happart : ∀ a ∈ s.ofProject cwd, ∀ b ∈ s.ofProject cwd, a.slug = b.slug → a = b := by
      intro a ha b hb hslug
      obtain ⟨ha,hdir⟩ := (hmem a).mp ha
      obtain ⟨hb,hdir'⟩ := (hmem b).mp hb
      exact h.apart a ha b hb (hdir.trans hdir'.symm) hslug
    have hproject : (s.ofProject cwd).Nodup := h.nodup.filter _
    have hperm : entries.Perm ((s.ofProject cwd).map ProjectMemory.entry) := by
      refine (List.perm_ext_iff_of_nodup hnodup.of_map ?_).mpr ?_
      · refine hproject.map_on ?_
        intro a ha b hb heq
        exact happart a ha b hb (congrArg MemoryEntry.slug heq)
      · intro e
        rw [hentries e,List.mem_map]
        constructor
        · rintro ⟨m,hm,hdir,he⟩
          exact ⟨m,(hmem m).mpr ⟨hm,hdir⟩,he⟩
        · rintro ⟨m,hm,he⟩
          exact ⟨m,((hmem m).mp hm).1,((hmem m).mp hm).2,he⟩
    refine .inr ⟨entries,by rw [htext]; rfl,?_,?_⟩
    · rw [(hperm.map _).nodup_iff,List.map_map]
      refine hproject.map_on ?_
      intro a ha b hb hname
      exact happart a ha b hb (congrArg slugify hname)
    · have hshown := hperm.map (fun e => (e.name,e.description))
      rwa [List.map_map] at hshown

theorem Sound.served {e : MemoryCall} (h : s.Sound) (hclear : s.Clear e) : s.Served e := by
  refine ⟨(h.next hclear).held,?_⟩
  rintro cwd located text rfl hlist
  cases located with
  | error e => cases hlist
  | ok =>
    cases hlist
    exact h.indexes hclear

theorem Sound.new : Sound {} where
  held := by
    intro dir file content _
    exact iff_of_false (fun h => by cases h) (fun ⟨_,hm,_⟩ => by cases hm)
  plain := fun m hm => by cases hm
  apart := fun m hm => by cases hm
  nodup := .nil
  indexed := fun dir => .inl ⟨rfl,fun m hm => by cases hm⟩

end Memories

/-- In a run whose calls are all clear, the files are those of the memories saved and not
deleted after every call, and every list shows its project. -/
theorem run_served {es : List MemoryCall} (hr : memoryStore.Run {} es)
    (hclear : ∀ p ∈ memoryStore.trail {} es, p.1.Clear p.2) :
    ∀ p ∈ memoryStore.trail {} es, p.1.Served p.2 := by
  intro p hp
  have hsound := (hr.mem_trail_of (I := Memories.Sound) (C := Memories.Clear)
    (fun s e h _ hc => h.next hc) .new hclear hp).1
  exact hsound.served (hclear p hp)

def saveArgs (name content : String) : Except String SaveArgs := .ok ⟨name,"user","A note.",content⟩

/-- A memory is saved, updated, listed and deleted. -/
def updatedRun : List MemoryCall :=
  [.save "/tmp/project" (saveArgs "user role" "old") (.ok ()) (.ok ()) (.ok ()),
    .save "/tmp/project" (saveArgs "user role" "new") (.ok ()) (.ok ()) (.ok ()),
    .list "/tmp/project" (.ok ()),
    .delete "/tmp/project" (.ok "user role") (.ok ()) (.ok ()) (.ok ())]

theorem updatedRun_served : memoryStore.Run {} updatedRun ∧
    ∀ p ∈ memoryStore.trail {} updatedRun, p.1.Served p.2 := by
  have hrun : memoryStore.Run {} updatedRun := ⟨trivial,trivial,trivial,trivial,trivial⟩
  refine ⟨hrun,run_served hrun ?_⟩
  simp only [updatedRun,Machine.forall_trail_cons]
  have hname : OneLine "user role" := ⟨by decide,by decide⟩
  have hdescription : OneLine "A note." := ⟨by decide,by decide⟩
  have hslug : slugify "user role" ≠ "" := by decide
  refine ⟨?_,?_,?_,?_,Machine.forall_trail_nil⟩
  · rintro m ⟨⟩
    exact ⟨hslug,hname,hdescription,List.forall_mem_nil _,rfl⟩
  · rintro m ⟨⟩
    refine ⟨hslug,hname,hdescription,?_,rfl⟩
    rintro m (_ | ⟨_,hm⟩) _ _
    · rfl
    · cases hm
  · rintro m (_ | ⟨_,hm⟩) _
    · rfl
    · cases hm
  · rintro key ⟨⟩
    refine ⟨?_,rfl⟩
    rintro m (_ | ⟨_,hm⟩) _ _
    · rfl
    · cases hm

def userRole : ProjectMemory := ⟨"/tmp/project","user role","user","A note.","one"⟩

/-- Two names have one slug. -/
def sharedSlugRun : List MemoryCall :=
  [.save "/tmp/project" (saveArgs "user role" "one") (.ok ()) (.ok ()) (.ok ()),
    .save "/tmp/project" (saveArgs "user_role" "two") (.ok ()) (.ok ()) (.ok ())]

theorem sharedSlugRun_not_served :
    ¬ ∀ es, memoryStore.Run {} es → ∀ p ∈ memoryStore.trail {} es, p.1.Served p.2 := by
  intro h
  have hheld := (h sharedSlugRun ⟨trivial,trivial,trivial⟩ _ (.tail _ (.head _))).1
  have hfirst := (hheld userRole.directory userRole.file userRole.body
    userRole.file_ne_indexName).mpr ⟨userRole,.tail _ (.head _),rfl,rfl,rfl⟩
  exact absurd hfirst (by decide)

end Rullama.Memory
