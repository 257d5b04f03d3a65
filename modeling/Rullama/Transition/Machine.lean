import Mathlib.Data.List.Basic
import Mathlib.Tactic.Common

/-! # Runs of guarded machines

A machine is a guard and a total next-state function. Its runs are the event
lists whose every event is enabled where it comes; the trail of a run pairs each
event with the state it met. All rules below go by recursion on the event list.
-/
namespace Rullama.Transition

structure Machine (σ ε : Type*) where
  enabled : σ → ε → Prop
  next : σ → ε → σ

namespace Machine
variable {σ ε : Type*} (M : Machine σ ε)

/-- The state after a list of events, oldest first. -/
def exec (s : σ) (es : List ε) : σ := es.foldl M.next s

/-- The transitions taken: each event with the state it met. -/
def trail : σ → List ε → List (σ × ε)
  | _, [] => []
  | s, e :: es => (s,e) :: trail (M.next s e) es

/-- Every event of the list is enabled when its turn comes. -/
def Run : σ → List ε → Prop
  | _, [] => True
  | s, e :: es => M.enabled s e ∧ Run (M.next s e) es

instance decidableRun [∀ s e, Decidable (M.enabled s e)] : ∀ s es, Decidable (M.Run s es)
  | _, [] => inferInstanceAs (Decidable True)
  | s, e :: es =>
    have := decidableRun (M.next s e) es
    inferInstanceAs (Decidable (_ ∧ _))

def Reachable (init s : σ) : Prop := ∃ es, M.Run init es ∧ M.exec init es = s

@[simp] theorem exec_nil (s : σ) : M.exec s [] = s := rfl
@[simp] theorem exec_cons (s : σ) (e : ε) (es : List ε) :
    M.exec s (e :: es) = M.exec (M.next s e) es := rfl
@[simp] theorem exec_append (s : σ) (es fs : List ε) :
    M.exec s (es ++ fs) = M.exec (M.exec s es) fs := List.foldl_append

@[simp] theorem trail_nil (s : σ) : M.trail s [] = [] := rfl
@[simp] theorem trail_cons (s : σ) (e : ε) (es : List ε) :
    M.trail s (e :: es) = (s,e) :: M.trail (M.next s e) es := rfl

@[simp] theorem run_nil (s : σ) : M.Run s [] := trivial
@[simp] theorem run_cons (s : σ) (e : ε) (es : List ε) :
    M.Run s (e :: es) ↔ M.enabled s e ∧ M.Run (M.next s e) es := Iff.rfl

theorem run_append {s : σ} {es fs : List ε} :
    M.Run s (es ++ fs) ↔ M.Run s es ∧ M.Run (M.exec s es) fs := by
  induction es generalizing s with
  | nil => simp
  | cons e es ih => simp [ih,and_assoc]

theorem trail_append (s : σ) (es fs : List ε) :
    M.trail s (es ++ fs) = M.trail s es ++ M.trail (M.exec s es) fs := by
  induction es generalizing s with
  | nil => rfl
  | cons e es ih =>
    rw [List.cons_append,trail_cons,trail_cons,ih,List.cons_append]
    rfl

theorem Reachable.refl (s : σ) : M.Reachable s s := ⟨[],trivial,rfl⟩

variable {M}

theorem forall_trail_nil {s : σ} {P : σ × ε → Prop} : ∀ p ∈ M.trail s [], P p :=
  List.forall_mem_nil P

/-- What holds of all transitions of a run is shown one event at a time. -/
theorem forall_trail_cons {s : σ} {e : ε} {es : List ε} {P : σ × ε → Prop} :
    (∀ p ∈ M.trail s (e :: es), P p) ↔ P (s,e) ∧ ∀ p ∈ M.trail (M.next s e) es, P p :=
  List.forall_mem_cons

theorem mem_of_mem_trail {s : σ} {es : List ε} {p : σ × ε} (hp : p ∈ M.trail s es) :
    p.2 ∈ es := by
  induction es generalizing s with
  | nil => cases hp
  | cons e es ih =>
    rcases List.mem_cons.mp hp with rfl | hp
    · exact List.mem_cons_self
    · exact List.mem_cons_of_mem e (ih hp)

theorem Reachable.next {init s : σ} {e : ε} (h : M.Reachable init s) (he : M.enabled s e) :
    M.Reachable init (M.next s e) := by
  obtain ⟨es,hr,rfl⟩ := h
  exact ⟨es ++ [e],(M.run_append).mpr ⟨hr,he,trivial⟩,by simp⟩

/-- A predicate kept by every step that meets the condition holds after a run
all of whose steps meet it. -/
theorem Run.invariant_of {I : σ → Prop} {C : σ → ε → Prop}
    (hstep : ∀ s e, I s → M.enabled s e → C s e → I (M.next s e))
    {s : σ} {es : List ε} (hr : M.Run s es) (hs : I s)
    (hC : ∀ p ∈ M.trail s es, C p.1 p.2) : I (M.exec s es) := by
  induction es generalizing s with
  | nil => exact hs
  | cons e es ih =>
    obtain ⟨he,hr⟩ := hr
    rw [forall_trail_cons] at hC
    exact ih hr (hstep s e hs he hC.1) hC.2

theorem Run.invariant {I : σ → Prop} (hstep : ∀ s e, I s → M.enabled s e → I (M.next s e))
    {s : σ} {es : List ε} (hr : M.Run s es) (hs : I s) : I (M.exec s es) :=
  hr.invariant_of (C := fun _ _ => True) (fun s e h he _ => hstep s e h he) hs (fun _ _ => trivial)

theorem Reachable.invariant {I : σ → Prop}
    (hstep : ∀ s e, I s → M.enabled s e → I (M.next s e)) {init s : σ}
    (h : M.Reachable init s) (hs : I init) : I s := by
  obtain ⟨es,hr,rfl⟩ := h
  exact hr.invariant hstep hs

/-- Where all steps of a run meet the condition, every transition starts in a state the
invariant holds of, and its event is enabled there. -/
theorem Run.mem_trail_of {I : σ → Prop} {C : σ → ε → Prop}
    (hstep : ∀ s e, I s → M.enabled s e → C s e → I (M.next s e))
    {s : σ} {es : List ε} (hr : M.Run s es) (hs : I s) (hC : ∀ p ∈ M.trail s es, C p.1 p.2)
    {p : σ × ε} (hp : p ∈ M.trail s es) : I p.1 ∧ M.enabled p.1 p.2 := by
  induction es generalizing s with
  | nil => simp at hp
  | cons e es ih =>
    obtain ⟨he,hr⟩ := hr
    rw [forall_trail_cons] at hC
    rcases List.mem_cons.mp hp with rfl | hp
    · exact ⟨hs,he⟩
    · exact ih hr (hstep s e hs he hC.1) hC.2 hp

theorem Run.mem_trail {I : σ → Prop} (hstep : ∀ s e, I s → M.enabled s e → I (M.next s e))
    {s : σ} {es : List ε} (hr : M.Run s es) (hs : I s) {p : σ × ε}
    (hp : p ∈ M.trail s es) : I p.1 ∧ M.enabled p.1 p.2 :=
  hr.mem_trail_of (C := fun _ _ => True) (fun s e h he _ => hstep s e h he) hs
    (fun _ _ => trivial) hp

theorem Run.reachable_of_mem {s : σ} {es : List ε} (hr : M.Run s es) {p : σ × ε}
    (hp : p ∈ M.trail s es) : M.Reachable s p.1 ∧ M.enabled p.1 p.2 :=
  hr.mem_trail (I := M.Reachable s) (fun _ _ h he => h.next he) (.refl M s) hp

/-- Exactness over runs. If a good state stays good under the condition and from a good
state a step has the property exactly when it meets the condition, then all steps of a
run have the property exactly when all meet the condition. -/
theorem Run.forall_iff {G : σ → Prop} {P C : σ → ε → Prop}
    (hkeep : ∀ s e, G s → M.enabled s e → C s e → G (M.next s e))
    (hexact : ∀ s e, G s → M.enabled s e → (P s e ↔ C s e))
    {s : σ} {es : List ε} (hr : M.Run s es) (hg : G s) :
    (∀ p ∈ M.trail s es, P p.1 p.2) ↔ ∀ p ∈ M.trail s es, C p.1 p.2 := by
  induction es generalizing s with
  | nil => simp
  | cons e es ih =>
    obtain ⟨he,hr⟩ := hr
    rw [forall_trail_cons,forall_trail_cons,hexact s e hg he]
    exact and_congr_right (fun hc => ih hr (hkeep s e hg he hc))

/-- Where the property is that the step leads to a good state again. -/
theorem Run.forall_good_iff {I G : σ → Prop} {C : σ → ε → Prop}
    (hstep : ∀ s e, I s → M.enabled s e → I (M.next s e))
    (hexact : ∀ s e, I s → G s → M.enabled s e → (G (M.next s e) ↔ C s e))
    {s : σ} {es : List ε} (hr : M.Run s es) (hs : I s) (hg : G s) :
    (∀ p ∈ M.trail s es, G (M.next p.1 p.2)) ↔ ∀ p ∈ M.trail s es, C p.1 p.2 := by
  refine hr.forall_iff (G := fun s => I s ∧ G s) (P := fun s e => G (M.next s e)) ?_ ?_ ⟨hs,hg⟩
  · intro s e h he hc
    exact ⟨hstep s e h.1 he,(hexact s e h.1 h.2 he).mpr hc⟩
  · intro s e h he
    exact hexact s e h.1 h.2 he

end Machine
end Rullama.Transition
