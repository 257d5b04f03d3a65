import Mathlib.Data.List.DropRight
import Rullama.Text.Parts

/-! # Trimming

What a text keeps when its blanks are taken off, for any notion of a blank, and the parts between
the occurrences of a marker that has no blanks.
-/
namespace Rullama.Text

variable {α : Type*} {blank : α → Bool} {s t w : List α}

def trimmed (blank : α → Bool) (s : List α) : List α := (s.dropWhile blank).rdropWhile blank

theorem rdropWhile_append_of_blank (hw : ∀ c ∈ w, blank c) (s : List α) :
    (s ++ w).rdropWhile blank = s.rdropWhile blank := by
  induction w using List.reverseRecOn with
  | nil => rw [List.append_nil]
  | append_singleton w c ih =>
    rw [← List.append_assoc,List.rdropWhile_concat_pos _ _ _ (hw c (by simp)),
      ih fun d hd => hw d (List.mem_append_left _ hd)]

theorem dropWhile_of_blank (hs : ∀ c ∈ s, blank c) : s.dropWhile blank = [] := by
  rw [List.dropWhile_eq_nil_iff]
  exact hs

theorem trimmed_append_left (hw : ∀ c ∈ w, blank c) (s : List α) :
    trimmed blank (w ++ s) = trimmed blank s := by
  rw [trimmed,List.dropWhile_append_of_pos hw]
  rfl

theorem trimmed_append_right (hw : ∀ c ∈ w, blank c) (s : List α) :
    trimmed blank (s ++ w) = trimmed blank s := by
  rw [trimmed,List.dropWhile_append]
  split
  · rename_i hs
    rw [trimmed,List.isEmpty_iff.mp hs,dropWhile_of_blank hw]
  · rw [rdropWhile_append_of_blank hw]
    rfl

/-- A text that begins with what is no blank loses only blanks at its end. -/
theorem trimmed_append_of_not_blank {c : α} (hs : s.head? = some c) (hc : blank c = false)
    (hlast : ∀ d ∈ s.getLast?, blank d = false) (t : List α) :
    trimmed blank (s ++ t) = s ++ t.rdropWhile blank := by
  obtain ⟨s',rfl⟩ : ∃ s', s = c :: s' := by
    cases s with
    | nil => cases hs
    | cons d s' =>
      cases hs
      exact ⟨s',rfl⟩
  have hdrop : (c :: s' ++ t).dropWhile blank = c :: s' ++ t := by
    rw [List.cons_append,List.dropWhile_cons_of_neg (by rw [hc]; exact Bool.false_ne_true)]
  rw [trimmed,hdrop]
  induction t using List.reverseRecOn with
  | nil =>
    rw [List.append_nil,List.rdropWhile_nil,List.append_nil,List.rdropWhile_eq_self_iff]
    intro hne hblank
    rw [hlast _ (List.getLast?_eq_getLast_of_ne_nil hne)] at hblank
    cases hblank
  | append_singleton t d ih =>
    rw [← List.append_assoc]
    by_cases hd : blank d = true
    · rw [List.rdropWhile_concat_pos _ _ _ hd,List.rdropWhile_concat_pos _ _ _ hd]
      refine ih ?_
      rw [List.cons_append,List.dropWhile_cons_of_neg (by rw [hc]; exact Bool.false_ne_true)]
    · rw [List.rdropWhile_concat_neg _ _ _ hd,List.rdropWhile_concat_neg _ _ _ hd,List.append_assoc]

/-- What is taken off the end leaves the first letter, unless it is the whole text. -/
theorem head?_rdropWhile (h : s.rdropWhile blank ≠ []) :
    (s.rdropWhile blank).head? = s.head? := by
  obtain ⟨w,hw⟩ := List.rdropWhile_prefix blank s
  obtain ⟨d,ds,hd⟩ := List.exists_cons_of_ne_nil h
  rw [hd] at hw ⊢
  rw [← hw]
  rfl

theorem exists_trimmed (blank : α → Bool) (s : List α) : ∃ w w', (∀ c ∈ w, blank c) ∧
    (∀ c ∈ w', blank c) ∧ s = w ++ (trimmed blank s ++ w') := by
  refine ⟨s.takeWhile blank,(s.dropWhile blank).rtakeWhile blank,
    fun c hc => List.mem_takeWhile_imp hc,fun c hc => List.mem_rtakeWhile_imp hc,?_⟩
  rw [trimmed,List.rdropWhile_append_rtakeWhile,List.takeWhile_append_dropWhile]

theorem length_trimmed_le (s : List α) : (trimmed blank s).length ≤ s.length :=
  ((List.rdropWhile_prefix blank _).length_le).trans (List.dropWhile_suffix blank).length_le

theorem trimmed_ends (s : List α) : (∀ c ∈ (trimmed blank s).head?, blank c = false) ∧
    ∀ c ∈ (trimmed blank s).getLast?, blank c = false := by
  constructor
  · intro c hc
    have hne : (s.dropWhile blank).rdropWhile blank ≠ [] := by
      intro h
      rw [trimmed,h] at hc
      cases hc
    rw [trimmed,head?_rdropWhile hne] at hc
    have hhead := List.head?_dropWhile_not blank s
    rw [hc] at hhead
    exact hhead
  · intro c hc
    have hne : (s.dropWhile blank).rdropWhile blank ≠ [] := by
      intro h
      rw [trimmed,h] at hc
      cases hc
    rw [trimmed,List.getLast?_eq_getLast_of_ne_nil hne,Option.mem_some_iff] at hc
    rw [← hc]
    exact Bool.eq_false_iff.mpr (List.rdropWhile_last_not blank _ hne)

/-- A text is trimmed when it neither begins nor ends with a blank. -/
theorem trimmed_eq_self_iff : trimmed blank s = s ↔
    (∀ c ∈ s.head?, blank c = false) ∧ ∀ c ∈ s.getLast?, blank c = false := by
  constructor
  · intro h
    rw [← h]
    exact trimmed_ends s
  · rintro ⟨hhead,hlast⟩
    have hdrop : s.dropWhile blank = s := by
      cases s with
      | nil => rfl
      | cons c s => rw [List.dropWhile_cons_of_neg (Bool.eq_false_iff.mp (hhead c rfl))]
    rw [trimmed,hdrop,List.rdropWhile_eq_self_iff]
    intro hne
    exact Bool.eq_false_iff.mp (hlast _ (List.getLast?_eq_getLast_of_ne_nil hne))

theorem trimmed_trimmed (s : List α) : trimmed blank (trimmed blank s) = trimmed blank s :=
  trimmed_eq_self_iff.mpr (trimmed_ends s)

/-! ## The parts of a trimmed text -/

variable {m : List α}

theorem isInfix_of_append_blank (hm : m ≠ []) (hw : ∀ c ∈ w, c ∉ m) (h : m <:+: s ++ w) :
    m <:+: s := by
  obtain ⟨x,y,h⟩ := h
  rcases List.append_eq_append_iff.mp h with ⟨e,hs,-⟩ | ⟨e,hx,hwe⟩
  · exact ⟨x,e,hs.symm⟩
  · rcases List.eq_nil_or_concat e with rfl | ⟨e,c,rfl⟩
    · rw [List.append_nil] at hx
      exact ⟨x,[],by rw [List.append_nil]; exact hx⟩
    · exfalso
      -- the last letter of the marker is one of the blanks
      have hlast := congrArg List.getLast? hx
      rw [List.getLast?_append_of_ne_nil _ hm,List.concat_eq_append,← List.append_assoc,
        List.getLast?_concat] at hlast
      refine hw c ?_ (List.mem_of_getLast? hlast)
      rw [hwe]
      simp

variable [DecidableEq α]

theorem parts_append_left (hm : m ≠ []) (hw : ∀ c ∈ w, c ∉ m) (s : List α) :
    parts m (w ++ s) = (parts m s).modifyHead (w ++ ·) := by
  induction w with
  | nil =>
    rw [List.nil_append]
    cases parts m s <;> rfl
  | cons c w ih =>
    have hnot : ¬m <+: c :: (w ++ s) := by
      rintro ⟨t,ht⟩
      obtain ⟨d,m',rfl⟩ := List.exists_cons_of_ne_nil hm
      rw [List.cons_append,List.cons.injEq] at ht
      refine hw c (.head _) ?_
      rw [ht.1]
      exact .head _
    rw [List.cons_append,parts_cons hm hnot,ih fun d hd => hw d (.tail _ hd),
      List.modifyHead_modifyHead]
    rfl

/-- Blanks at the ends of a text are at the ends of its parts. -/
theorem map_trimmed_parts (hm : m ≠ []) (hmb : ∀ c ∈ m, blank c = false) (s : List α) :
    (parts m (trimmed blank s)).map (trimmed blank) = (parts m s).map (trimmed blank) := by
  have hnot {w : List α} (hw : ∀ c ∈ w, blank c) : ∀ c ∈ w, c ∉ m := by
    intro c hc hcm
    have hblank := hw c hc
    rw [hmb c hcm] at hblank
    cases hblank
  have hright (w : List α) (hw : ∀ c ∈ w, blank c) (t : List α) :
      (parts m (t ++ w)).map (trimmed blank) = (parts m t).map (trimmed blank) := by
    induction t using (cut_shortens hm).induction with
    | hnone t h =>
      have happend : cut m (t ++ w) = none := by
        rw [cut_eq_none] at h ⊢
        exact fun hin => h (isInfix_of_append_blank hm (hnot hw) hin)
      rw [parts_of_cut_eq_none h,parts_of_cut_eq_none happend,List.map_singleton,
        List.map_singleton,trimmed_append_right hw]
    | hsome t b rest h ih =>
      rw [parts_of_cut hm h,parts_of_cut hm (cut_append h w),List.map_cons,List.map_cons,ih]
  have hleft (w : List α) (hw : ∀ c ∈ w, blank c) (t : List α) :
      (parts m (w ++ t)).map (trimmed blank) = (parts m t).map (trimmed blank) := by
    rw [parts_append_left hm (hnot hw)]
    cases parts m t with
    | nil => rfl
    | cons p ps => exact congrArg (· :: _) (trimmed_append_left hw p)
  have hstart : s = s.takeWhile blank ++ s.dropWhile blank := List.takeWhile_append_dropWhile.symm
  have hend : s.dropWhile blank = trimmed blank s ++ (s.dropWhile blank).rtakeWhile blank :=
    (List.rdropWhile_append_rtakeWhile ..).symm
  conv_rhs => rw [hstart,hleft _ (fun c hc => List.mem_takeWhile_imp hc),hend,
    hright _ (fun c hc => List.mem_rtakeWhile_imp hc)]

end Rullama.Text
