import Mathlib.Data.List.Nodup
import Mathlib.Data.List.Perm.Subperm
import Rullama.Text.Templates

/-! # Command templates

The arguments of a command replace their placeholders in its template, one argument after the
other, in the order of a hash map.
-/
namespace Rullama.Commands

open Rullama.Text

abbrev Arg := List Char × List Char

def placeholder (key : List Char) : List Char := ['{','{'] ++ key ++ ['}','}']

/-- `str::replace` -/
def replace (text pattern value : List Char) : List Char := value.intercalate (parts pattern text)

/-- `render_template` where the map is read in this order -/
def renderTemplate (template : List Char) (args : List Arg) : List Char :=
  args.foldl (fun result arg => replace result (placeholder arg.1) arg.2) template

/-- A map of arguments, in one of the orders in which it may be read. -/
structure ArgMap where
  entries : List Arg
  distinct : (entries.map Prod.fst).Nodup

/-! ## What a template says -/

variable (args : ArgMap) (template : List Char)

def ArgMap.keys : List (List Char) := args.entries.map Prod.fst

/-- The template with its placeholders as holes. -/
def templatePieces : List (Piece Char (List Char)) := Text.template placeholder args.keys 0 template

/-- These arguments are filled in, and the placeholders of the others still stand there. -/
def filledWith (done : List Arg) : List Char :=
  shown placeholder (done.lookup ·) (templatePieces args template)

/-- Every step replaces the placeholders of the template and nothing else, and all of them are
replaced in the end. -/
structure Faithful (order : List Arg) : Prop where
  step : ∀ done arg rest, order = done ++ arg :: rest →
    parts (placeholder arg.1) (renderTemplate template done) =
      between placeholder (done.lookup ·) arg.1 (templatePieces args template)
  result : renderTemplate template order = filledWith args template args.entries

/-- Where some arguments are filled in, no placeholder of another begins but for those that the
template has. -/
def SpellsNothing : Prop :=
  ∀ done : List Arg, done.Sublist args.entries → ∀ arg ∈ args.entries, arg ∉ done →
    OnlyAtHoles placeholder (done.lookup ·) arg.1 (templatePieces args template)

/-! ## Steps -/

variable {args template} {done order : List Arg} {arg : Arg}

theorem placeholder_ne_nil (key : List Char) : placeholder key ≠ [] := List.cons_ne_nil _ _

theorem renderTemplate_concat :
    renderTemplate template (done ++ [arg]) =
      replace (renderTemplate template done) (placeholder arg.1) arg.2 := by
  rw [renderTemplate,List.foldl_concat]
  rfl

theorem filledWith_nil : filledWith args template [] = template := shown_template placeholder_ne_nil 0

theorem lookup_eq_none (h : arg.1 ∉ done.map Prod.fst) : done.lookup arg.1 = none := by
  rw [List.lookup_eq_none_iff]
  intro p hp
  rw [bne_iff_ne]
  intro heq
  exact h (heq ▸ List.mem_map_of_mem hp)

theorem lookup_concat (h : arg.1 ∉ done.map Prod.fst) :
    ((done ++ [arg]).lookup ·) = fillIn (done.lookup ·) arg.1 arg.2 := by
  funext key
  rw [List.lookup_append,fillIn,List.lookup_singleton]
  by_cases hkey : key = arg.1
  · rw [if_pos hkey,hkey,lookup_eq_none h]
    simp
  · rw [if_neg hkey,if_neg (by simpa using hkey),Option.or_none]

theorem lookup_eq_some_iff {l : List Arg} (h : (l.map Prod.fst).Nodup) {key value : List Char} :
    l.lookup key = some value ↔ (key,value) ∈ l := by
  induction l with
  | nil => exact iff_of_false (fun h => (nomatch h)) List.not_mem_nil
  | cons p l ih =>
    rw [List.map_cons,List.nodup_cons] at h
    rw [List.lookup_cons,List.mem_cons]
    by_cases hkey : key = p.1
    · subst hkey
      rw [beq_self_eq_true]
      simp only [Option.some.injEq]
      constructor
      · rintro rfl
        exact .inl rfl
      · rintro (hp | hl)
        · rw [← hp]
        · exact absurd (List.mem_map_of_mem hl) h.1
    · rw [beq_eq_false_iff_ne.mpr hkey]
      simp only
      rw [ih h.2]
      refine ⟨.inr,fun hp => hp.resolve_left fun heq => hkey ?_⟩
      rw [← heq]

/-- What is filled in does not depend on the order. -/
theorem lookup_perm {l l' : List Arg} (hl : (l.map Prod.fst).Nodup) (h : l.Perm l') :
    (l.lookup ·) = (l'.lookup ·) := by
  have hl' : (l'.map Prod.fst).Nodup := (h.map _).nodup_iff.mp hl
  funext key
  refine Option.ext fun value => ?_
  rw [lookup_eq_some_iff hl,lookup_eq_some_iff hl',h.mem_iff]

/-- The text is cut at the placeholders of the template exactly where no other begins. -/
theorem parts_filledWith_iff (hkey : arg.1 ∉ done.map Prod.fst) :
    parts (placeholder arg.1) (filledWith args template done) =
        between placeholder (done.lookup ·) arg.1 (templatePieces args template) ↔
      OnlyAtHoles placeholder (done.lookup ·) arg.1 (templatePieces args template) :=
  parts_eq_between_iff (placeholder_ne_nil arg.1) (lookup_eq_none hkey)

/-! ## Orders -/

section Orders

variable {rest : List Arg}

theorem keys_nodup (h : order.Perm args.entries) : (order.map Prod.fst).Nodup :=
  (h.map _).nodup_iff.mpr args.distinct

theorem notMem_keys (h : ((done ++ arg :: rest).map Prod.fst).Nodup) :
    arg.1 ∉ done.map Prod.fst := by
  rw [List.map_append,List.map_cons] at h
  intro hmem
  exact (List.nodup_append.mp h).2.2 _ hmem _ List.mem_cons_self rfl

/-- While every step is at the placeholders of the template, the arguments are filled in. -/
theorem renderTemplate_eq_filledWith (hkeys : (order.map Prod.fst).Nodup)
    (hsteps : ∀ done arg rest, order = done ++ arg :: rest →
      renderTemplate template done = filledWith args template done →
      parts (placeholder arg.1) (renderTemplate template done) =
        between placeholder (done.lookup ·) arg.1 (templatePieces args template))
    (horder : order = done ++ rest) :
    renderTemplate template done = filledWith args template done := by
  induction done using List.reverseRecOn generalizing rest with
  | nil => exact filledWith_nil.symm
  | append_singleton done arg ih =>
    rw [List.append_assoc,List.singleton_append] at horder
    have hkey : arg.1 ∉ done.map Prod.fst := notMem_keys (horder ▸ hkeys)
    have hparts := hsteps done arg rest horder (ih horder)
    rw [renderTemplate_concat,replace,hparts,intercalate_between,filledWith,lookup_concat hkey]

theorem SpellsNothing.onlyAtHoles (h : SpellsNothing args template)
    (hperm : order.Perm args.entries) (horder : order = done ++ arg :: rest) :
    OnlyAtHoles placeholder (done.lookup ·) arg.1 (templatePieces args template) := by
  have hkeys := keys_nodup hperm
  rw [horder] at hkeys
  have hsub : done.Sublist order := horder ▸ List.sublist_append_left done _
  obtain ⟨set,hset,hentries⟩ := hsub.subperm.trans hperm.subperm
  have hmem : arg ∈ args.entries := hperm.mem_iff.mp (horder ▸ by simp)
  have hdone : (done.map Prod.fst).Nodup := by
    rw [List.map_append] at hkeys
    exact (List.nodup_append.mp hkeys).1
  have hnot : arg ∉ set := fun hin =>
    notMem_keys hkeys (List.mem_map_of_mem (hset.mem_iff.mp hin))
  rw [lookup_perm hdone hset.symm]
  exact h set hentries arg hmem hnot

theorem SpellsNothing.faithful (h : SpellsNothing args template)
    (hperm : order.Perm args.entries) : Faithful args template order := by
  have hkeys := keys_nodup hperm
  have hsteps : ∀ done arg rest, order = done ++ arg :: rest →
      renderTemplate template done = filledWith args template done →
      parts (placeholder arg.1) (renderTemplate template done) =
        between placeholder (done.lookup ·) arg.1 (templatePieces args template) := by
    intro done arg rest horder hrendered
    rw [hrendered,parts_filledWith_iff (notMem_keys (horder ▸ hkeys))]
    exact h.onlyAtHoles hperm horder
  refine ⟨fun done arg rest horder => hsteps done arg rest horder ?_,?_⟩
  · exact renderTemplate_eq_filledWith hkeys hsteps horder
  · rw [renderTemplate_eq_filledWith hkeys hsteps (List.append_nil order).symm,filledWith,
      lookup_perm hkeys hperm,filledWith]

/-- Any set of the arguments comes first in some order, and any other one after it. -/
theorem exists_order {set : List Arg} (hset : set.Sublist args.entries) (harg : arg ∈ args.entries)
    (hnot : arg ∉ set) : ∃ rest, (set ++ arg :: rest).Perm args.entries := by
  have hnodup : args.entries.Nodup := List.Nodup.of_map Prod.fst args.distinct
  have hsub : (arg :: set) ⊆ args.entries := List.cons_subset.mpr ⟨harg,hset.subset⟩
  have hcons : (arg :: set).Nodup := List.nodup_cons.mpr ⟨hnot,hnodup.sublist hset⟩
  obtain ⟨first,hfirst,hentries⟩ := List.subperm_of_subset hcons hsub
  obtain ⟨rest,hrest⟩ := hentries.exists_perm_append
  have hmiddle : (set ++ arg :: rest).Perm (arg :: set ++ rest) := List.perm_middle
  exact ⟨rest,(hmiddle.trans (hfirst.symm.append_right rest)).trans hrest.symm⟩

theorem spellsNothing_of_faithful
    (h : ∀ order : List Arg, order.Perm args.entries → Faithful args template order) :
    SpellsNothing args template := by
  intro set hset arg harg hnot
  obtain ⟨rest,hperm⟩ := exists_order hset harg hnot
  have hkeys := keys_nodup hperm
  have hfaithful := h _ hperm
  have hrendered : renderTemplate template set = filledWith args template set :=
    renderTemplate_eq_filledWith hkeys
      (fun done arg rest horder _ => hfaithful.step done arg rest horder) rfl
  have hparts := hfaithful.step set arg rest rfl
  rwa [hrendered,parts_filledWith_iff (notMem_keys hkeys)] at hparts

end Orders

/-- In every order the placeholders of the template are replaced, and nothing else, exactly where
no filled in text spells a placeholder that is still to be replaced. -/
theorem renderTemplate_faithful_iff (args : ArgMap) (template : List Char) :
    (∀ order : List Arg, order.Perm args.entries → Faithful args template order) ↔
      SpellsNothing args template :=
  ⟨spellsNothing_of_faithful,fun h _ hperm => h.faithful hperm⟩

/-- The value of `a` is the placeholder of `b`. -/
def nestedArgs : ArgMap where
  entries := [("a".toList,placeholder "b".toList),("b".toList,"x".toList)]
  distinct := by decide

/-- A value is substituted again where it comes before the argument that it names, and the text
depends on the order. -/
theorem renderTemplate_departs :
    renderTemplate (placeholder "a".toList) nestedArgs.entries = "x".toList ∧
    renderTemplate (placeholder "a".toList) nestedArgs.entries.reverse = placeholder "b".toList ∧
    ¬∀ order : List Arg, order.Perm nestedArgs.entries →
      Faithful nestedArgs (placeholder "a".toList) order := by
  have hfirst : renderTemplate (placeholder "a".toList) nestedArgs.entries = "x".toList := by
    decide +kernel
  have hsecond : renderTemplate (placeholder "a".toList) nestedArgs.entries.reverse =
      placeholder "b".toList := by
    decide +kernel
  refine ⟨hfirst,hsecond,fun h => ?_⟩
  have hsame := (h _ (List.Perm.refl _)).result.trans (h _ (List.reverse_perm _)).result.symm
  rw [hfirst,hsecond] at hsame
  cases hsame

end Rullama.Commands
