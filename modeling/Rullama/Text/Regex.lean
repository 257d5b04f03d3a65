import Rullama.Text.Chunks

/-! # Regular expressions

Expressions over classes of letters, with greedy repetitions and one group whose text is read. The
ways of an expression to match are listed in the order in which they are preferred.
-/
namespace Rullama.Text

variable {α : Type*}

inductive Regex (α : Type*)
  | empty
  | letter (p : α → Bool)
  | seq (a b : Regex α)
  | alt (a b : Regex α)
  /-- at least `lo` letters of a class, at most `hi` of them, and as many as possible -/
  | many (p : α → Bool) (lo : ℕ) (hi : Option ℕ)
  /-- the group -/
  | capture (a : Regex α)

/-- How many letters at the front are of a class. -/
def most (p : α → Bool) : Option ℕ → List α → ℕ
  | some n,s => ((s.take n).takeWhile p).length
  | none,s => (s.takeWhile p).length

namespace Regex

/-- The texts that the group can match at the front of a text, with what comes after the whole
match. -/
def ways : Regex α → List α → List (Option (List α) × List α)
  | empty,s => [(none,s)]
  | letter p,s =>
    match s with
    | [] => []
    | c :: t => if p c then [(none,t)] else []
  | seq a b,s =>
    (ways a s).flatMap (fun w => (ways b w.2).map (fun v => (v.1.or w.1,v.2)))
  | alt a b,s => ways a s ++ ways b s
  | many p lo hi,s =>
    ((List.range (most p hi s + 1)).reverse.filter (fun n => lo ≤ n)).map (fun n => (none,s.drop n))
  | capture a,s => (ways a s).map (fun w => (some (s.take (s.length - w.2.length)),w.2))

/-- The first match from the left. -/
def nextMatch (r : Regex α) : List α → Option (Option (List α) × List α)
  | [] => (ways r []).head?
  | c :: s =>
    match (ways r (c :: s)).head? with
    | some w => some w
    | none => nextMatch r s

/-- The texts of the group in the matches from left to right, for an expression that matches no
empty text. -/
def captures (r : Regex α) (s : List α) : List (List α) :=
  (split (nextMatch r) s).1.filterMap id

/-! ## Lengths -/

def minLength : Regex α → ℕ
  | empty => 0
  | letter _ => 1
  | seq a b => minLength a + minLength b
  | alt a b => min (minLength a) (minLength b)
  | many _ lo _ => lo
  | capture a => minLength a

/-- The group has at least so many letters. -/
def capturesAtLeast (n : ℕ) : Regex α → Bool
  | seq a b | alt a b => capturesAtLeast n a && capturesAtLeast n b
  | capture a => n ≤ minLength a
  | _ => true

variable {r : Regex α} {s x : List α} {w : Option (List α) × List α} {n : ℕ}

theorem most_le (p : α → Bool) (hi : Option ℕ) (s : List α) : most p hi s ≤ s.length := by
  cases hi with
  | some n => exact Nat.le_trans (List.takeWhile_prefix p).length_le (List.length_take_le' n s)
  | none => exact (List.takeWhile_prefix p).length_le

theorem length_of_mem_ways (h : w ∈ ways r s) : minLength r + w.2.length ≤ s.length := by
  induction r generalizing s w with
  | empty =>
    rw [List.mem_singleton.mp h]
    exact Nat.le_of_eq (Nat.zero_add s.length)
  | letter p =>
    cases s with
    | nil => cases h
    | cons c t =>
      rw [ways] at h
      split at h
      · rw [List.mem_singleton.mp h]
        exact Nat.le_of_eq (Nat.add_comm 1 t.length)
      · cases h
  | seq a b iha ihb =>
    rw [ways] at h
    obtain ⟨u,hu,h⟩ := List.mem_flatMap.mp h
    obtain ⟨v,hv,rfl⟩ := List.mem_map.mp h
    have ha := iha hu
    have hb := ihb hv
    rw [minLength]
    simp only
    omega
  | alt a b iha ihb =>
    rw [minLength]
    rcases List.mem_append.mp h with h | h
    · have ha := iha h
      omega
    · have hb := ihb h
      omega
  | many p lo hi =>
    rw [ways] at h
    obtain ⟨k,hk,rfl⟩ := List.mem_map.mp h
    obtain ⟨hk,hlo⟩ := List.mem_filter.mp hk
    have hmost := List.mem_range.mp (List.mem_reverse.mp hk)
    have hlength := most_le p hi s
    have hle := of_decide_eq_true hlo
    rw [minLength,List.length_drop]
    omega
  | capture a ih =>
    rw [ways] at h
    obtain ⟨u,hu,rfl⟩ := List.mem_map.mp h
    have ha : minLength a + u.2.length ≤ s.length := ih hu
    exact ha

theorem length_of_mem_capture (hr : capturesAtLeast n r = true) (h : w ∈ ways r s) (hx : w.1 = some x) :
    n ≤ x.length := by
  induction r generalizing s w with
  | empty =>
    rw [List.mem_singleton.mp h] at hx
    cases hx
  | letter p =>
    cases s with
    | nil => cases h
    | cons c t =>
      rw [ways] at h
      split at h
      · rw [List.mem_singleton.mp h] at hx
        cases hx
      · cases h
  | seq a b iha ihb =>
    rw [ways] at h
    obtain ⟨u,hu,h⟩ := List.mem_flatMap.mp h
    obtain ⟨v,hv,rfl⟩ := List.mem_map.mp h
    rw [capturesAtLeast,Bool.and_eq_true] at hr
    rcases Option.or_eq_some_iff.mp hx with hx | ⟨-,hx⟩
    · exact ihb hr.2 hv hx
    · exact iha hr.1 hu hx
  | alt a b iha ihb =>
    rw [capturesAtLeast,Bool.and_eq_true] at hr
    rcases List.mem_append.mp h with h | h
    · exact iha hr.1 h hx
    · exact ihb hr.2 h hx
  | many p lo hi =>
    rw [ways] at h
    obtain ⟨k,-,rfl⟩ := List.mem_map.mp h
    cases hx
  | capture a ih =>
    rw [ways] at h
    obtain ⟨u,hu,rfl⟩ := List.mem_map.mp h
    have hlength := length_of_mem_ways hu
    cases hx
    rw [List.length_take]
    have hleast : n ≤ minLength a := of_decide_eq_true hr
    omega

theorem mem_ways_of_nextMatch (h : nextMatch r s = some w) : ∃ t, w ∈ ways r t := by
  induction s with
  | nil => exact ⟨[],List.mem_of_head? h⟩
  | cons c s ih =>
    rw [nextMatch] at h
    split at h
    · rename_i v hv
      cases h
      exact ⟨c :: s,List.mem_of_head? hv⟩
    · exact ih h

theorem length_of_mem_captures (hr : capturesAtLeast n r = true) (h : x ∈ captures r s) :
    n ≤ x.length := by
  obtain ⟨c,hc,rfl⟩ := List.mem_filterMap.mp h
  obtain ⟨t,rest,hnext⟩ := exists_of_mem_split hc
  obtain ⟨u,hu⟩ := mem_ways_of_nextMatch hnext
  exact length_of_mem_capture hr hu rfl

end Regex

end Rullama.Text
