import Mathlib.Data.List.Perm.Basic
import Mathlib.Data.List.Nodup
import Mathlib.Tactic.Common

/-! # Counting attempts

Work is accepted under rising numbers, waits, is started, and after a failure may wait
again until its retries are used up. The log has one entry for every start; it agrees with
what each piece of work under way counts for itself.
-/
namespace Rullama.Agent

/-- A piece of work: how often it was started, and whether it waits or runs. -/
structure Attempt where
  id : ℕ
  made : ℕ
  max : ℕ
  waits : Bool

namespace Attempt

/-- Work that waits has a start left. -/
def limit (a : Attempt) : ℕ := if a.waits then a.max else a.max + 1

end Attempt

structure Tallied (retries : ℕ) (attempts : List Attempt) (accepted : ℕ) (log : List ℕ) : Prop where
  distinct : (attempts.map Attempt.id).Nodup
  known : ∀ a ∈ attempts, a.id < accepted
  counted : ∀ a ∈ attempts, log.count a.id = a.made
  within : ∀ a ∈ attempts, a.max = retries ∧ a.made ≤ a.limit
  logged : ∀ id ∈ log, id < accepted
  bounded : ∀ id, log.count id ≤ 1 + retries

namespace Tallied
variable {retries accepted : ℕ} {attempts attempts' : List Attempt} {log : List ℕ} {a : Attempt}

theorem nil : Tallied retries [] accepted [] where
  distinct := List.nodup_nil
  known := by simp
  counted := by simp
  within := by simp
  logged := by simp
  bounded := by simp

theorem perm (h : Tallied retries attempts accepted log) (hp : attempts'.Perm attempts) :
    Tallied retries attempts' accepted log where
  distinct := (hp.map Attempt.id).nodup_iff.mpr h.distinct
  known a ha := h.known a (hp.mem_iff.mp ha)
  counted a ha := h.counted a (hp.mem_iff.mp ha)
  within a ha := h.within a (hp.mem_iff.mp ha)
  logged := h.logged
  bounded := h.bounded

/-- Work that is done or lost. -/
theorem ended (h : Tallied retries (a :: attempts) accepted log) :
    Tallied retries attempts accepted log where
  distinct := (List.nodup_cons.mp h.distinct).2
  known b hb := h.known b (List.mem_cons_of_mem _ hb)
  counted b hb := h.counted b (List.mem_cons_of_mem _ hb)
  within b hb := h.within b (List.mem_cons_of_mem _ hb)
  logged := h.logged
  bounded := h.bounded

theorem ne_of_mem (h : Tallied retries (a :: attempts) accepted log) {b : Attempt}
    (hb : b ∈ attempts) : b.id ≠ a.id := by
  intro heq
  apply (List.nodup_cons.mp h.distinct).1
  rw [← heq]
  exact List.mem_map_of_mem hb

theorem accept (h : Tallied retries attempts accepted log) :
    Tallied retries (⟨accepted,0,retries,true⟩ :: attempts) (accepted + 1) log := by
  have hfresh : accepted ∉ log := fun hmem => Nat.lt_irrefl _ (h.logged _ hmem)
  refine ⟨?_,?_,?_,?_,?_,h.bounded⟩
  · refine List.nodup_cons.mpr ⟨?_,h.distinct⟩
    intro hmem
    obtain ⟨b,hb,hid⟩ := List.mem_map.mp hmem
    exact Nat.ne_of_lt (h.known b hb) hid
  · intro b hb
    rcases List.mem_cons.mp hb with rfl | hb
    · exact Nat.lt_succ_self _
    · exact Nat.lt_succ_of_lt (h.known b hb)
  · intro b hb
    rcases List.mem_cons.mp hb with rfl | hb
    · exact List.count_eq_zero.mpr hfresh
    · exact h.counted b hb
  · intro b hb
    rcases List.mem_cons.mp hb with rfl | hb
    · exact ⟨rfl,Nat.zero_le _⟩
    · exact h.within b hb
  · intro id hid
    exact Nat.lt_succ_of_lt (h.logged id hid)

theorem start {id made max : ℕ}
    (h : Tallied retries (⟨id,made,max,true⟩ :: attempts) accepted log) :
    Tallied retries (⟨id,made + 1,max,false⟩ :: attempts) accepted (log ++ [id]) := by
  have hcount : log.count id = made := h.counted _ List.mem_cons_self
  obtain ⟨hmax,hmade⟩ := h.within _ List.mem_cons_self
  replace hmade : made ≤ max := hmade
  replace hmax : max = retries := hmax
  have hother : ∀ j, j ≠ id → (log ++ [id]).count j = log.count j := by
    intro j hj
    rw [List.count_append,List.count_singleton,if_neg (by simpa using hj.symm),Nat.add_zero]
  have hself : (log ++ [id]).count id = made + 1 := by
    rw [List.count_append,List.count_singleton_self,hcount]
  refine ⟨h.distinct,?_,?_,?_,?_,?_⟩
  · intro b hb
    rcases List.mem_cons.mp hb with rfl | hb
    · exact h.known ⟨id,made,max,true⟩ List.mem_cons_self
    · exact h.known b (List.mem_cons_of_mem _ hb)
  · intro b hb
    rcases List.mem_cons.mp hb with rfl | hb
    · exact hself
    · rw [hother _ (h.ne_of_mem hb)]
      exact h.counted b (List.mem_cons_of_mem _ hb)
  · intro b hb
    rcases List.mem_cons.mp hb with rfl | hb
    · exact ⟨hmax,Nat.succ_le_succ hmade⟩
    · exact h.within b (List.mem_cons_of_mem _ hb)
  · intro j hj
    rcases List.mem_append.mp hj with hj | hj
    · exact h.logged j hj
    · rw [List.mem_singleton.mp hj]
      exact h.known ⟨id,made,max,true⟩ List.mem_cons_self
  · intro j
    by_cases hj : j = id
    · rw [hj,hself]
      omega
    · rw [hother j hj]
      exact h.bounded j

/-- Work that failed and has a retry left. -/
theorem retry {id made max : ℕ} (h : Tallied retries (⟨id,made,max,false⟩ :: attempts) accepted log)
    (hmade : made ≤ max) : Tallied retries (⟨id,made,max,true⟩ :: attempts) accepted log := by
  refine ⟨h.distinct,?_,?_,?_,h.logged,h.bounded⟩
  · intro b hb
    rcases List.mem_cons.mp hb with rfl | hb
    · exact h.known ⟨id,made,max,false⟩ List.mem_cons_self
    · exact h.known b (List.mem_cons_of_mem _ hb)
  · intro b hb
    rcases List.mem_cons.mp hb with rfl | hb
    · exact h.counted ⟨id,made,max,false⟩ List.mem_cons_self
    · exact h.counted b (List.mem_cons_of_mem _ hb)
  · intro b hb
    rcases List.mem_cons.mp hb with rfl | hb
    · exact ⟨(h.within ⟨id,made,max,false⟩ List.mem_cons_self).1,hmade⟩
    · exact h.within b (List.mem_cons_of_mem _ hb)

end Tallied
end Rullama.Agent
