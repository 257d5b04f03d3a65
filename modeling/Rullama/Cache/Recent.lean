import Mathlib.Data.List.Dedup
import Mathlib.Data.List.DropRight

/-! # What was used last

The most recently used things, each of them once, in the order of their last use.
-/
namespace Rullama.Cache
variable {α : Type}

/-! ## The last of a list -/

theorem length_rtake_le (n : ℕ) (l : List α) : (l.rtake n).length ≤ n := by
  rw [List.rtake,List.length_drop]
  omega

theorem rtake_of_length_le {n : ℕ} {l : List α} (h : l.length ≤ n) : l.rtake n = l := by
  rw [List.rtake,Nat.sub_eq_zero_of_le h,List.drop_zero]

theorem rtake_append_of_le {n : ℕ} {a b : List α} (h : n ≤ b.length) :
    (a ++ b).rtake n = b.rtake n := by
  rw [List.rtake,List.rtake,List.length_append,List.drop_append,List.drop_eq_nil_of_le (by omega),
    List.nil_append]
  congr 1
  omega

/-! ## Uses -/

variable [DecidableEq α]

/-- The last `n` things of a list of uses. -/
def recent (n : ℕ) (uses : List α) : List α := uses.dedup.rtake n

theorem recent_nil (n : ℕ) : recent n ([] : List α) = [] := List.drop_nil

theorem length_recent_le (n : ℕ) (uses : List α) : (recent n uses).length ≤ n :=
  length_rtake_le n _

theorem mem_of_recent {n : ℕ} {uses : List α} {a : α} (h : a ∈ recent n uses) : a ∈ uses :=
  List.mem_dedup.mp (List.mem_of_mem_drop h)

/-- A use takes the thing from where it was. -/
theorem dedup_concat (uses : List α) (a : α) :
    (uses ++ [a]).dedup = uses.dedup.filter (· ≠ a) ++ [a] := by
  induction uses with
  | nil => rfl
  | cons b uses ih =>
    rw [List.cons_append,List.dedup_cons,List.dedup_cons,ih]
    by_cases hb : b = a
    · subst hb
      rw [if_pos (List.mem_append_right _ List.mem_cons_self)]
      split
      · rfl
      · rw [List.filter_cons_of_neg (by simp)]
    · by_cases hmem : b ∈ uses
      · rw [if_pos (List.mem_append_left _ hmem),if_pos hmem]
      · have hout : b ∉ uses ++ [a] := by
          rw [List.mem_append,List.mem_singleton]
          exact fun h => h.elim hmem hb
        rw [if_neg hout,if_neg hmem,List.filter_cons_of_pos (by simpa using hb)]
        rfl

/-- To take one thing out of the last `n+1` leaves as much as is needed for the last `n`. -/
theorem rtake_filter_ne {n : ℕ} {l : List α} (hl : l.Nodup) (a : α) :
    (l.filter (· ≠ a)).rtake n = ((l.rtake (n+1)).filter (· ≠ a)).rtake n := by
  by_cases hlong : l.length ≤ n+1
  · rw [rtake_of_length_le hlong]
  · have hsplit : l = l.take (l.length-(n+1)) ++ l.rtake (n+1) := (List.take_append_drop _ l).symm
    have hlength : (l.rtake (n+1)).length = n+1 := by
      rw [List.rtake,List.length_drop]
      omega
    have hnodup : (l.rtake (n+1)).Nodup := (List.drop_sublist _ l).nodup hl
    have hleft : n ≤ ((l.rtake (n+1)).filter (· ≠ a)).length := by
      have herase : (l.rtake (n+1)).erase a = (l.rtake (n+1)).filter (· ≠ a) := by
        rw [hnodup.erase_eq_filter]
        exact List.filter_congr (fun x _ =>
          Bool.eq_iff_iff.mpr (bne_iff_ne.trans decide_eq_true_iff.symm))
      have hle : (l.rtake (n+1)).length - 1 ≤ ((l.rtake (n+1)).erase a).length :=
        List.le_length_erase
      rw [← herase]
      omega
    conv_lhs => rw [hsplit,List.filter_append]
    exact rtake_append_of_le hleft

/-- A use of a thing moves it to the end, and the first one is forgotten if there are too many. -/
theorem recent_concat (n : ℕ) (uses : List α) (a : α) :
    recent n (uses ++ [a]) = ((recent n uses).filter (· ≠ a) ++ [a]).rtake n := by
  unfold recent
  rw [dedup_concat]
  cases n with
  | zero => rw [List.rtake_zero,List.rtake_zero]
  | succ n =>
    rw [List.rtake_concat_succ,List.rtake_concat_succ,
      rtake_filter_ne (List.nodup_dedup uses)]

end Rullama.Cache
