import Mathlib.Data.List.Infix
import Mathlib.Tactic.Common

/-! # Searching for markers

The first occurrence of a marker splits a text. A marker is sharp when its first letter does
not come in it again: its occurrences cannot overlap with each other, nor with anything else
that begins with that letter.
-/
namespace Rullama.Text

variable {α : Type*}

/-! ## Sharp markers -/

structure Sharp (x : α) (m : List α) : Prop where
  head : m.head? = some x
  tail : x ∉ m.tail

/-- The text is empty or begins with the letter. -/
def StartsAt (x : α) (s : List α) : Prop := s = [] ∨ s.head? = some x

section Sharp

variable {x : α} {m : List α}

theorem Sharp.ne_nil (h : Sharp x m) : m ≠ [] := by
  rintro rfl
  cases h.head

theorem Sharp.startsAt (h : Sharp x m) (a : List α) : StartsAt x (m ++ a) := by
  refine .inr ?_
  rw [List.head?_append,h.head]
  rfl

/-- A sharp marker does not reach from a text into one that begins with its letter. -/
theorem Sharp.isPrefix_append_iff (h : Sharp x m) {d c : List α} (hd : d ≠ [])
    (hc : StartsAt x c) : m <+: d ++ c ↔ m <+: d := by
  refine ⟨fun hpre => ?_,fun hpre => hpre.trans (List.prefix_append _ _)⟩
  obtain ⟨t,ht⟩ := hpre
  rcases List.append_eq_append_iff.mp ht with ⟨e,rfl,-⟩ | ⟨e,rfl,he⟩
  · exact List.prefix_append _ _
  · cases e with
    | nil => rw [List.append_nil]
    | cons y e =>
      exfalso
      have hy : y = x := by
        rcases hc with rfl | hc
        · simp at he
        · simpa [he] using hc
      refine h.tail ?_
      cases d with
      | nil => exact absurd rfl hd
      | cons z d => simp [hy]

end Sharp

/-! ## At the front -/

variable [DecidableEq α] {x : α} {m s b a : List α}

/-- What comes after a marker that the text begins with. -/
def past (m s : List α) : Option (List α) := if m <+: s then some (s.drop m.length) else none

theorem past_eq_some : past m s = some a ↔ s = m ++ a := by
  rw [past]
  constructor
  · intro h
    split at h
    · rename_i hpre
      cases h
      obtain ⟨t,rfl⟩ := hpre
      rw [List.drop_left]
    · cases h
  · rintro rfl
    rw [if_pos (List.prefix_append m a),List.drop_left]

theorem past_eq_none : past m s = none ↔ ¬ m <+: s := by
  rw [past]
  split <;> simp_all

/-! ## The first occurrence -/

/-- What stands before and after the first occurrence of a marker. -/
def cut (m : List α) : List α → Option (List α × List α)
  | [] => if m = [] then some ([],[]) else none
  | c :: cs =>
    if m <+: c :: cs then some ([],(c :: cs).drop m.length)
    else (cut m cs).map (fun p => (c :: p.1,p.2))

theorem cut_of_isPrefix (h : m <+: s) : cut m s = some ([],s.drop m.length) := by
  cases s with
  | nil =>
    have hm : m = [] := List.prefix_nil.mp h
    rw [cut,if_pos hm,List.drop_nil]
  | cons c cs => rw [cut,if_pos h]

theorem cut_cons_of_not_isPrefix {c : α} (h : ¬ m <+: c :: s) :
    cut m (c :: s) = (cut m s).map (fun p => (c :: p.1,p.2)) := by
  rw [cut,if_neg h]

theorem eq_append_of_cut (h : cut m s = some (b,a)) : s = b ++ (m ++ a) := by
  induction s generalizing b with
  | nil =>
    rw [cut] at h
    split at h
    · rename_i hm
      cases h
      simp [hm]
    · cases h
  | cons c cs ih =>
    by_cases hp : m <+: c :: cs
    · rw [cut_of_isPrefix hp] at h
      cases h
      obtain ⟨t,ht⟩ := hp
      rw [← ht,List.drop_left,List.nil_append]
    · rw [cut_cons_of_not_isPrefix hp,Option.map_eq_some_iff] at h
      obtain ⟨⟨b',a'⟩,hcut,heq⟩ := h
      cases heq
      rw [List.cons_append,← ih hcut]

theorem cut_eq_none : cut m s = none ↔ ¬ m <:+: s := by
  induction s with
  | nil =>
    rw [cut,List.infix_nil]
    split <;> simp_all
  | cons c cs ih =>
    rw [List.infix_cons_iff]
    by_cases hp : m <+: c :: cs
    · simp [cut_of_isPrefix hp,hp]
    · simp [cut_cons_of_not_isPrefix hp,hp,ih]

theorem isInfix_of_cut (h : cut m s = some (b,a)) : m <:+: s := by
  rw [eq_append_of_cut h]
  exact ⟨b,a,List.append_assoc ..⟩

/-- The marker does not come before its first occurrence. -/
theorem not_isInfix_of_cut (hm : m ≠ []) (h : cut m s = some (b,a)) : ¬ m <:+: b := by
  induction s generalizing b with
  | nil =>
    rw [cut,if_neg hm] at h
    cases h
  | cons c cs ih =>
    by_cases hp : m <+: c :: cs
    · rw [cut_of_isPrefix hp] at h
      cases h
      rw [List.infix_nil]
      exact hm
    · rw [cut_cons_of_not_isPrefix hp,Option.map_eq_some_iff] at h
      obtain ⟨⟨b',a'⟩,hcut,heq⟩ := h
      cases heq
      rw [List.infix_cons_iff]
      rintro (hpre | hin)
      · refine hp (hpre.trans ?_)
        rw [eq_append_of_cut hcut]
        exact List.prefix_append (c :: b') _
      · exact ih hcut hin

/-- What comes later does not move the first occurrence. -/
theorem cut_append (h : cut m s = some (b,a)) (t : List α) :
    cut m (s ++ t) = some (b,a ++ t) := by
  induction s generalizing b with
  | nil =>
    rw [cut] at h
    split at h
    · rename_i hm
      cases h
      subst hm
      rw [cut_of_isPrefix List.nil_prefix]
      rfl
    · cases h
  | cons c cs ih =>
    by_cases hp : m <+: c :: cs
    · rw [cut_of_isPrefix hp] at h
      cases h
      rw [cut_of_isPrefix (hp.trans (List.prefix_append _ _)),
        List.drop_append_of_le_length hp.length_le]
    · have hcut := h
      rw [cut_cons_of_not_isPrefix hp,Option.map_eq_some_iff] at h
      obtain ⟨⟨b',a'⟩,hrest,heq⟩ := h
      cases heq
      have hp' : ¬ m <+: (c :: cs) ++ t := by
        intro hpre
        have hlen : m.length ≤ (c :: cs).length := by
          rw [eq_append_of_cut hcut]
          simp only [List.length_append,List.length_cons]
          omega
        exact hp (List.prefix_of_prefix_length_le hpre (List.prefix_append _ _) hlen)
      rw [List.cons_append] at hp' ⊢
      rw [cut_cons_of_not_isPrefix hp',ih hrest]
      rfl

/-! ## The first occurrence of a sharp marker -/

theorem Sharp.cut_append (h : Sharp x m) (hb : ¬ m <:+: b) {c : List α} (hc : StartsAt x c) :
    cut m (b ++ c) = (cut m c).map (fun p => (b ++ p.1,p.2)) := by
  induction b with
  | nil => simp
  | cons y b ih =>
    rw [List.infix_cons_iff,not_or] at hb
    have hnot : ¬ m <+: y :: (b ++ c) := by
      rw [← List.cons_append,h.isPrefix_append_iff (List.cons_ne_nil _ _) hc]
      exact hb.1
    rw [List.cons_append,cut_cons_of_not_isPrefix hnot,ih hb.2,Option.map_map]
    rfl

theorem Sharp.cut_marker (h : Sharp x m) (hb : ¬ m <:+: b) (a : List α) :
    cut m (b ++ (m ++ a)) = some (b,a) := by
  rw [h.cut_append hb (h.startsAt a),cut_of_isPrefix (List.prefix_append m a),List.drop_left,
    Option.map_some,List.append_nil]

/-- Text that the search goes through without an occurrence. -/
def Through (m u s : List α) : Prop := cut m (u ++ s) = (cut m s).map (fun p => (u ++ p.1,p.2))

theorem Through.append {u v : List α} (hu : Through m u (v ++ s)) (hv : Through m v s) :
    Through m (u ++ v) s := by
  rw [Through,List.append_assoc,hu,hv,Option.map_map]
  simp only [Function.comp_def,List.append_assoc]

theorem through_of_not_mem {u : List α} (hm : m.head? = some x) (hu : x ∉ u) (s : List α) :
    Through m u s := by
  induction u with
  | nil => simp [Through]
  | cons c u ih =>
    rw [List.mem_cons,not_or] at hu
    have hnot : ¬ m <+: c :: (u ++ s) := by
      rintro ⟨t,ht⟩
      cases m with
      | nil => cases hm
      | cons d m =>
        rw [List.cons_append,List.cons.injEq] at ht
        cases hm
        exact hu.1 ht.1
    rw [Through,List.cons_append,cut_cons_of_not_isPrefix hnot,ih hu.2,Option.map_map]
    rfl

omit [DecidableEq α] in
/-- Texts that differ within their first letters. -/
theorem not_isPrefix_append {u : List α} (k : ℕ) (hm : k ≤ m.length) (hu : k ≤ u.length)
    (h : m.take k ≠ u.take k) (s : List α) : ¬ m <+: u ++ s := by
  rintro ⟨t,ht⟩
  have := congrArg (List.take k) ht
  rw [List.take_append_of_le_length hm,List.take_append_of_le_length hu] at this
  exact h this

/-- Another marker that begins with the same letter. -/
theorem through_marker {u : List α} (hm : m.head? = some x) (hu : x ∉ u) (k : ℕ)
    (hk : k ≤ m.length) (hk' : k ≤ u.length + 1) (h : m.take k ≠ (x :: u).take k) (s : List α) :
    Through m (x :: u) s := by
  have hnot : ¬ m <+: x :: (u ++ s) :=
    not_isPrefix_append (u := x :: u) k hk hk' h s
  rw [Through,List.cons_append,cut_cons_of_not_isPrefix hnot,through_of_not_mem hm hu s,
    Option.map_map]
  rfl

/-- An occurrence in a text put together of two lies in one of them. -/
theorem Sharp.cut_append_cases (h : Sharp x m) {p u : List α} (hu : StartsAt x u)
    (hcut : cut m (p ++ u) = some (b,a)) :
    (∃ a', a = a' ++ u ∧ cut m p = some (b,a')) ∨
    ∃ b', b = p ++ b' ∧ cut m u = some (b',a) := by
  cases hp : cut m p with
  | some q =>
    have := Text.cut_append hp u
    rw [hcut] at this
    cases this
    exact .inl ⟨q.2,rfl,rfl⟩
  | none =>
    rw [h.cut_append (cut_eq_none.mp hp) hu,Option.map_eq_some_iff] at hcut
    obtain ⟨q,hq,heq⟩ := hcut
    cases heq
    exact .inr ⟨q.1,rfl,hq⟩

end Rullama.Text
