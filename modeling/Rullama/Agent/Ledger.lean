import Mathlib.Data.List.Pairwise
import Mathlib.Tactic.Common

/-! # Ledgers of requests and answers

Requests are opened under rising numbers, each with a copy of the answers that are on
record when it opens, and end by an answer or by a failure. One request, number 0, may be
waiting from the start. The ledger is serial when no two requests are in progress at a time,
each was opened with all earlier answers on record, and the record is in the order of the
requests.
-/
namespace Rullama.Agent

structure Ledger where
  answers : List ℕ
  inProgress : List (ℕ × List ℕ)
  failed : List ℕ
  opened : ℕ
  waiting : Bool

inductive LedgerEvent where
  | open
  | openWaiting
  | answer (request : ℕ)
  | fail (request : ℕ)

namespace Ledger

def next (l : Ledger) : LedgerEvent → Ledger
  | .open =>
    { l with inProgress := l.inProgress ++ [(l.opened,l.answers)], opened := l.opened + 1 }
  | .openWaiting => { l with inProgress := l.inProgress ++ [(0,l.answers)], waiting := false }
  | .answer request =>
    { l with
      inProgress := l.inProgress.eraseP (fun r => r.1 = request)
      answers := l.answers ++ [request] }
  | .fail request =>
    { l with
      inProgress := l.inProgress.eraseP (fun r => r.1 = request)
      failed := l.failed ++ [request] }

def Enabled (l : Ledger) : LedgerEvent → Prop
  | .open => True
  | .openWaiting => l.waiting = true
  | .answer request | .fail request => ∃ r ∈ l.inProgress, r.1 = request

structure Serial (l : Ledger) : Prop where
  alone : l.inProgress.length ≤ 1
  informed : ∀ r ∈ l.inProgress, ∀ j < r.1, j ∈ r.2
  ordered : l.answers.Pairwise (· < ·)

/-- A request is opened only when all earlier ones have been answered. -/
def OpensSettled (l : Ledger) : LedgerEvent → Prop
  | .open => l.inProgress = [] ∧ l.failed = [] ∧ l.waiting = false
  | _ => True

/-- A serial ledger, and where its requests are. -/
structure Good (l : Ledger) : Prop extends l.Serial where
  latest : ∀ r ∈ l.inProgress, r.1 + 1 = l.opened
  answered : ∀ j ∈ l.answers, j < l.opened ∧ j ∉ l.failed ∧ ∀ r ∈ l.inProgress, r.1 ≠ j
  unanswered : ∀ j ∈ l.failed, j < l.opened ∧ ∀ r ∈ l.inProgress, r.1 ≠ j
  first : l.waiting = true → l.inProgress = [] ∧ l.failed = [] ∧ l.answers = [] ∧ l.opened = 1
  covered : ∀ j < l.opened,
    j ∈ l.answers ∨ j ∈ l.failed ∨ (∃ r ∈ l.inProgress, r.1 = j) ∨ l.waiting = true

/-- The empty ledger, where request 0 waits or none does. -/
theorem good_initial (waiting : Bool) : Good ⟨[],[],[],if waiting then 1 else 0,waiting⟩ where
  alone := Nat.zero_le 1
  informed := by simp
  ordered := List.Pairwise.nil
  latest := by simp
  answered := by simp
  unanswered := by simp
  first h := by
    subst h
    exact ⟨rfl,rfl,rfl,rfl⟩
  covered j hj := by
    cases waiting with
    | false => exact absurd hj (Nat.not_lt_zero j)
    | true => simp

variable {l : Ledger}

/-- The request in progress is the only one, so nothing is in progress when it ends. -/
theorem Good.inProgress_eq (hg : l.Good) {request : ℕ} (h : ∃ r ∈ l.inProgress, r.1 = request) :
    (∃ answers, l.inProgress = [(request,answers)]) ∧ request + 1 = l.opened ∧
      l.inProgress.eraseP (fun r => r.1 = request) = [] := by
  obtain ⟨r,hr,rfl⟩ := h
  have hone : l.inProgress = [r] := by
    have hlength := hg.alone
    rcases hp : l.inProgress with _ | ⟨x,_ | ⟨y,rest⟩⟩
    · simp [hp] at hr
    · have hx : r = x := by simpa [hp] using hr
      rw [hx]
    · simp [hp] at hlength
  exact ⟨⟨r.2,hone⟩,hg.latest r hr,by simp [hone]⟩

theorem Good.waiting_eq_false (hg : l.Good) (h : ∃ r, r ∈ l.inProgress) : l.waiting = false := by
  obtain ⟨r,hr⟩ := h
  rw [← Bool.not_eq_true]
  intro hw
  rw [(hg.first hw).1] at hr
  exact absurd hr List.not_mem_nil

/-- Whatever ends the request in progress leaves every number but its own where it was. -/
theorem Good.covered_ended (hg : l.Good) {request : ℕ} (h : ∃ r ∈ l.inProgress, r.1 = request)
    {j : ℕ} (hj : j < l.opened) : j ∈ l.answers ∨ j ∈ l.failed ∨ j = request := by
  obtain ⟨⟨answers,hone⟩,-,-⟩ := hg.inProgress_eq h
  have hw : l.waiting = false := hg.waiting_eq_false ⟨_,by rw [hone]; exact List.mem_singleton_self _⟩
  rcases hg.covered j hj with h | h | ⟨r,hr,rfl⟩ | h
  · exact .inl h
  · exact .inr (.inl h)
  · rw [hone,List.mem_singleton] at hr
    exact .inr (.inr (by rw [hr]))
  · rw [hw] at h
    cases h

theorem Good.next_open (hg : l.Good) (h : l.OpensSettled .open) : (l.next .open).Good := by
  obtain ⟨hnone,hfailed,hwaiting⟩ := h
  have hall : ∀ j < l.opened, j ∈ l.answers := by
    intro j hj
    rcases hg.covered j hj with h | h | ⟨r,hr,-⟩ | h
    · exact h
    · simp [hfailed] at h
    · simp [hnone] at hr
    · simp [hwaiting] at h
  have hin : (l.next .open).inProgress = [(l.opened,l.answers)] := by simp [next,hnone]
  refine ⟨⟨?_,?_,hg.ordered⟩,?_,?_,?_,?_,?_⟩
  · simp [hin]
  · intro r hr j hj
    rw [hin,List.mem_singleton] at hr
    subst hr
    exact hall j hj
  · intro r hr
    rw [hin,List.mem_singleton] at hr
    rw [hr]
    rfl
  · intro j hj
    have hlt := (hg.answered j hj).1
    refine ⟨Nat.lt_succ_of_lt hlt,(hg.answered j hj).2.1,?_⟩
    intro r hr
    rw [hin,List.mem_singleton] at hr
    subst hr
    exact Nat.ne_of_gt hlt
  · intro j hj
    rw [show (l.next .open).failed = l.failed from rfl,hfailed] at hj
    exact absurd hj List.not_mem_nil
  · intro hw
    rw [show (l.next .open).waiting = l.waiting from rfl,hwaiting] at hw
    cases hw
  · intro j hj
    rcases Nat.lt_succ_iff_lt_or_eq.mp hj with h | rfl
    · exact .inl (hall j h)
    · exact .inr (.inr (.inl ⟨_,by rw [hin]; exact List.mem_singleton_self _,rfl⟩))

theorem Good.next_openWaiting (hg : l.Good) (h : l.waiting = true) :
    (l.next .openWaiting).Good := by
  obtain ⟨hnone,hfailed,hanswers,hopened⟩ := hg.first h
  have hin : (l.next .openWaiting).inProgress = [(0,[])] := by simp [next,hnone,hanswers]
  refine ⟨⟨?_,?_,hg.ordered⟩,?_,?_,?_,?_,?_⟩
  · simp [hin]
  · intro r hr j hj
    rw [hin,List.mem_singleton] at hr
    subst hr
    exact absurd hj (Nat.not_lt_zero j)
  · intro r hr
    rw [hin,List.mem_singleton] at hr
    subst hr
    exact hopened.symm
  · intro j hj
    rw [show (l.next .openWaiting).answers = l.answers from rfl,hanswers] at hj
    exact absurd hj List.not_mem_nil
  · intro j hj
    rw [show (l.next .openWaiting).failed = l.failed from rfl,hfailed] at hj
    exact absurd hj List.not_mem_nil
  · intro hw
    cases hw
  · intro j hj
    have hzero : j = 0 := by
      change j < l.opened at hj
      omega
    exact .inr (.inr (.inl ⟨_,by rw [hin]; exact List.mem_singleton_self _,hzero.symm⟩))

/-- A ledger with nothing in progress and nothing waiting. -/
theorem good_of_none (hnone : l.inProgress = []) (hwaiting : l.waiting = false)
    (hordered : l.answers.Pairwise (· < ·))
    (hanswers : ∀ j ∈ l.answers, j < l.opened ∧ j ∉ l.failed)
    (hfailed : ∀ j ∈ l.failed, j < l.opened)
    (hcovered : ∀ j < l.opened, j ∈ l.answers ∨ j ∈ l.failed) : l.Good where
  alone := by simp [hnone]
  informed := by simp [hnone]
  ordered := hordered
  latest := by simp [hnone]
  answered j hj := ⟨(hanswers j hj).1,(hanswers j hj).2,by simp [hnone]⟩
  unanswered j hj := ⟨hfailed j hj,by simp [hnone]⟩
  first hw := by
    rw [hwaiting] at hw
    cases hw
  covered j hj := by
    rcases hcovered j hj with h | h
    · exact .inl h
    · exact .inr (.inl h)

theorem Good.next_answer (hg : l.Good) {request : ℕ} (h : l.Enabled (.answer request)) :
    (l.next (.answer request)).Good := by
  obtain ⟨⟨answers,hone⟩,hlast,hnone⟩ := hg.inProgress_eq h
  have hr : (request,answers) ∈ l.inProgress := by rw [hone]; exact List.mem_singleton_self _
  have hbefore : ∀ j ∈ l.answers, j < request := by
    intro j hj
    obtain ⟨hlt,-,hother⟩ := hg.answered j hj
    have hne : request ≠ j := hother _ hr
    omega
  have hrequest : request ∉ l.failed := by
    intro hf
    exact (hg.unanswered request hf).2 _ hr rfl
  have hin : (l.next (.answer request)).inProgress = [] := hnone
  have hwaiting : (l.next (.answer request)).waiting = false := hg.waiting_eq_false ⟨_,hr⟩
  apply good_of_none hin hwaiting
  · apply List.pairwise_append.mpr
    refine ⟨hg.ordered,List.pairwise_singleton _ _,?_⟩
    intro j hj k hk
    rw [List.mem_singleton.mp hk]
    exact hbefore j hj
  · intro j hj
    rcases List.mem_append.mp hj with hj | hj
    · exact ⟨(hg.answered j hj).1,(hg.answered j hj).2.1⟩
    · rw [List.mem_singleton.mp hj]
      have hlt : request < l.opened := by omega
      exact ⟨hlt,hrequest⟩
  · intro j hj
    exact (hg.unanswered j hj).1
  · intro j hj
    rcases hg.covered_ended h hj with h | h | rfl
    · exact .inl (List.mem_append_left _ h)
    · exact .inr h
    · exact .inl (List.mem_append_right _ (List.mem_singleton_self _))

theorem Good.next_fail (hg : l.Good) {request : ℕ} (h : l.Enabled (.fail request)) :
    (l.next (.fail request)).Good := by
  obtain ⟨⟨answers,hone⟩,hlast,hnone⟩ := hg.inProgress_eq h
  have hr : (request,answers) ∈ l.inProgress := by rw [hone]; exact List.mem_singleton_self _
  have hin : (l.next (.fail request)).inProgress = [] := hnone
  have hwaiting : (l.next (.fail request)).waiting = false := hg.waiting_eq_false ⟨_,hr⟩
  apply good_of_none hin hwaiting hg.ordered
  · intro j hj
    obtain ⟨hlt,hf,hother⟩ := hg.answered j hj
    refine ⟨hlt,?_⟩
    intro hmem
    rcases List.mem_append.mp hmem with hmem | hmem
    · exact hf hmem
    · exact hother _ hr (List.mem_singleton.mp hmem).symm
  · intro j hj
    rcases List.mem_append.mp hj with hj | hj
    · exact (hg.unanswered j hj).1
    · have hlt : request < l.opened := by omega
      rw [List.mem_singleton.mp hj]
      exact hlt
  · intro j hj
    rcases hg.covered_ended h hj with h | h | rfl
    · exact .inl h
    · exact .inr (List.mem_append_left _ h)
    · exact .inr (List.mem_append_right _ (List.mem_singleton_self _))

theorem Good.next (hg : l.Good) {e : LedgerEvent} (he : l.Enabled e) (h : l.OpensSettled e) :
    (l.next e).Good := by
  cases e with
  | «open» => exact hg.next_open h
  | openWaiting => exact hg.next_openWaiting he
  | answer request => exact hg.next_answer he
  | fail request => exact hg.next_fail he

/-- The one way out of being serial is a request opened while an earlier one has no
answer on record. -/
theorem Good.serial_next_iff (hg : l.Good) {e : LedgerEvent} (he : l.Enabled e) :
    (l.next e).Serial ↔ l.OpensSettled e := by
  constructor
  · intro h
    cases e with
    | «open» =>
      have hmem : (l.opened,l.answers) ∈ (l.next .open).inProgress :=
        List.mem_append_right _ (List.mem_singleton_self _)
      have hall : ∀ j < l.opened, j ∈ l.answers := h.informed _ hmem
      refine ⟨?_,?_,?_⟩
      · have hlength := h.alone
        simp only [Ledger.next,List.length_append,List.length_singleton] at hlength
        exact List.length_eq_zero_iff.mp (by omega)
      · apply List.eq_nil_iff_forall_not_mem.mpr
        intro j hj
        have hlt := (hg.unanswered j hj).1
        exact (hg.answered j (hall j hlt)).2.1 hj
      · rw [← Bool.not_eq_true]
        intro hw
        obtain ⟨-,-,hanswers,hopened⟩ := hg.first hw
        have hzero := hall 0 (by omega)
        rw [hanswers] at hzero
        exact absurd hzero List.not_mem_nil
    | openWaiting | answer | fail => trivial
  · intro h
    exact (hg.next he h).toSerial

end Ledger
end Rullama.Agent
