import Mathlib.Data.Finset.Card
import Mathlib.Data.List.Nodup
import Mathlib.Data.Finset.Filter
import Mathlib.Data.List.Perm.Basic

/-! # Computations that ask, and their replay

A computation asks questions and goes on with the answers, or with `none` where an answer
is not known. It can be answered at once, or replayed with more and more known answers
until it misses none. The rules below say when the two come to the same.
-/
namespace Rullama.Replay

inductive Asking (Q A R : Type*) where
  | done (result : R)
  | ask (question : Q) (onAnswer : Option A → Asking Q A R)

namespace Asking
variable {Q A R : Type*}

/-- The result with all questions answered, and the questions in order. -/
def answered (f : Q → A) : Asking Q A R → R × List Q
  | done r => (r,[])
  | ask q k => ((k (some (f q))).answered f).map id (q :: ·)

/-- The result with the known answers only, and the questions that were missed. -/
def replay (known : Q → Option A) : Asking Q A R → R × List Q
  | done r => (r,[])
  | ask q k =>
    match known q with
    | some a => (k (some a)).replay known
    | none => ((k none).replay known).map id (q :: ·)

/-- Every question that can come up is one of those. -/
def Asks (P : Q → Prop) : Asking Q A R → Prop
  | done _ => True
  | ask q k => P q ∧ ∀ a, (k a).Asks P

theorem Asks.mem_answered {P : Q → Prop} {f : Q → A} {s : Asking Q A R} (h : s.Asks P) {q : Q}
    (hq : q ∈ (s.answered f).2) : P q := by
  induction s with
  | done r => cases hq
  | ask p k ih =>
    rcases List.mem_cons.mp hq with rfl | hq
    · exact h.1
    · exact ih _ (h.2 _) hq

theorem Asks.mem_replay {P : Q → Prop} {known : Q → Option A} {s : Asking Q A R} (h : s.Asks P)
    {q : Q} (hq : q ∈ (s.replay known).2) : P q := by
  induction s with
  | done r => cases hq
  | ask p k ih =>
    rw [replay] at hq
    cases hp : known p with
    | some a =>
      rw [hp] at hq
      exact ih _ (h.2 _) hq
    | none =>
      rw [hp] at hq
      rcases List.mem_cons.mp hq with rfl | hq
      · exact h.1
      · exact ih _ (h.2 _) hq

theorem Asks.replay_congr {P : Q → Prop} {known known' : Q → Option A} {s : Asking Q A R}
    (h : s.Asks P) (heq : ∀ q, P q → known q = known' q) : s.replay known = s.replay known' := by
  induction s with
  | done r => rfl
  | ask p k ih =>
    rw [replay,replay,heq p h.1,ih none (h.2 none)]
    cases known' p with
    | some a => exact ih _ (h.2 _)
    | none => rfl

/-- Everything that is known is right. -/
def Knows (f : Q → A) (known : Q → Option A) : Prop := ∀ q a, known q = some a → a = f q

section Replay
variable {f : Q → A} {known : Q → Option A} {s : Asking Q A R}

theorem mem_replay_unknown {q : Q} (h : q ∈ (s.replay known).2) : known q = none := by
  induction s with
  | done r => cases h
  | ask p k ih =>
    rw [replay] at h
    cases hp : known p with
    | some a =>
      rw [hp] at h
      exact ih (some a) h
    | none =>
      rw [hp] at h
      rcases List.mem_cons.mp h with rfl | h
      · exact hp
      · exact ih none h

/-- A replay that misses nothing is the computation itself. -/
theorem replay_of_nil (hf : Knows f known) (h : (s.replay known).2 = []) :
    (s.replay known).1 = (s.answered f).1 ∧ ∀ q ∈ (s.answered f).2, (known q).isSome := by
  induction s with
  | done r => exact ⟨rfl,List.forall_mem_nil _⟩
  | ask p k ih =>
    rw [replay] at h ⊢
    cases hp : known p with
    | some a =>
      rw [hp] at h
      obtain ⟨hresult,hall⟩ := ih (some a) h
      cases hf p a hp
      exact ⟨hresult,List.forall_mem_cons.mpr ⟨hp ▸ rfl,hall⟩⟩
    | none =>
      rw [hp] at h
      cases h

/-- Up to the first miss a replay does what the computation does. -/
theorem head_replay_mem (hf : Knows f known) {q : Q} {qs : List Q}
    (h : (s.replay known).2 = q :: qs) : q ∈ (s.answered f).2 := by
  induction s with
  | done r => cases h
  | ask p k ih =>
    rw [replay] at h
    cases hp : known p with
    | some a =>
      rw [hp] at h
      cases hf p a hp
      exact List.mem_cons_of_mem _ (ih _ h)
    | none =>
      rw [hp] at h
      cases h
      exact .head _

end Replay

/-! ## Rounds -/

section Rounds
variable [DecidableEq Q] (f : Q → A) (s : Asking Q A R)

def learn (known : Q → Option A) (qs : List Q) : Q → Option A :=
  fun q => if q ∈ qs then some (f q) else known q

/-- Replays in at most so many rounds, with all that was missed asked after each. -/
def rounds : ℕ → (Q → Option A) → Option R × List Q
  | 0, _ => (none,[])
  | n + 1, known =>
    match s.replay known with
    | (r,[]) => (some r,[])
    | (_,q :: qs) => (rounds n (learn f known (q :: qs))).map id (q :: qs ++ ·)

/-- What is missed in one round after the other. -/
def missed : (Q → Option A) → ℕ → List Q
  | known, 0 => (s.replay known).2
  | known, n + 1 => missed (learn f known (s.replay known).2) n

variable {f s} {known : Q → Option A}

theorem Knows.learn (hf : Knows f known) (qs : List Q) : Knows f (learn f known qs) := by
  intro q a hq
  unfold Asking.learn at hq
  split at hq
  · exact (Option.some.inj hq).symm
  · exact hf q a hq

theorem learn_nil : learn f known [] = known := by
  funext q
  simp [learn]

theorem missed_of_nil (h : (s.replay known).2 = []) (n : ℕ) : missed f s known n = [] := by
  induction n with
  | zero => exact h
  | succ n ih => rw [missed,h,learn_nil,ih]

/-- The questions of the computation that are not known yet. -/
def unknown (f : Q → A) (s : Asking Q A R) (known : Q → Option A) : Finset Q :=
  (s.answered f).2.toFinset.filter (fun q => (known q).isNone = true)

theorem mem_unknown {q : Q} :
    q ∈ unknown f s known ↔ q ∈ (s.answered f).2 ∧ known q = none := by
  rw [unknown,Finset.mem_filter,List.mem_toFinset,Option.isNone_iff_eq_none]

theorem learn_eq_none {qs : List Q} {q : Q} :
    learn f known qs q = none ↔ q ∉ qs ∧ known q = none := by
  unfold learn
  by_cases hq : q ∈ qs
  · simp [hq]
  · simp [hq]

theorem unknown_learn_lt (hf : Knows f known) {q : Q} {qs : List Q}
    (h : (s.replay known).2 = q :: qs) :
    (unknown f s (learn f known (q :: qs))).card < (unknown f s known).card := by
  have hq : q ∈ (s.replay known).2 := h ▸ .head _
  refine Finset.card_lt_card (Finset.ssubset_iff_subset_ne.mpr ⟨?_,?_⟩)
  · intro p hp
    rw [mem_unknown,learn_eq_none] at hp
    exact mem_unknown.mpr ⟨hp.1,hp.2.2⟩
  · intro heq
    have hold : q ∈ unknown f s known :=
      mem_unknown.mpr ⟨head_replay_mem hf h,mem_replay_unknown hq⟩
    rw [← heq,mem_unknown,learn_eq_none] at hold
    exact hold.2.1 (.head _)

/-- With more rounds than unknown questions the result is that of the computation, all of
its questions have been answered, and none that was known has been asked. -/
theorem rounds_spec (hf : Knows f known) {n : ℕ} (hn : (unknown f s known).card < n) :
    (rounds f s n known).1 = some (s.answered f).1 ∧
      (∀ q ∈ (s.answered f).2, (known q).isSome ∨ q ∈ (rounds f s n known).2) ∧
      ∀ q ∈ (rounds f s n known).2, known q = none := by
  induction n generalizing known with
  | zero => cases hn
  | succ n ih =>
    rw [rounds]
    rcases hreplay : s.replay known with ⟨r,_ | ⟨q,qs⟩⟩
    · obtain ⟨hresult,hall⟩ := replay_of_nil hf (by rw [hreplay])
      rw [hreplay] at hresult
      exact ⟨congrArg some hresult,fun p hp => .inl (hall p hp),List.forall_mem_nil _⟩
    · have hmissed : (s.replay known).2 = q :: qs := by rw [hreplay]
      have hless := unknown_learn_lt hf hmissed
      obtain ⟨hresult,hall,hnew⟩ := ih (hf.learn (q :: qs)) (by omega)
      refine ⟨hresult,?_,?_⟩
      · intro p hp
        rcases hall p hp with hp | hp
        · by_cases hmem : p ∈ q :: qs
          · exact .inr (List.mem_append_left _ hmem)
          · exact .inl (by simpa [Asking.learn,hmem] using hp)
        · exact .inr (List.mem_append_right _ hp)
      · intro p hp
        rcases List.mem_append.mp hp with hp | hp
        · exact mem_replay_unknown (hmissed ▸ hp)
        · exact (learn_eq_none.mp (hnew p hp)).2

/-- Every question is asked once and none but those of the computation, exactly when each
round misses such questions only, each of them once. -/
theorem rounds_exact_iff (hf : Knows f known) {n : ℕ} (hn : (unknown f s known).card < n) :
    ((rounds f s n known).2.Nodup ∧ ∀ q ∈ (rounds f s n known).2, q ∈ (s.answered f).2) ↔
      ∀ i, (missed f s known i).Nodup ∧ ∀ q ∈ missed f s known i, q ∈ (s.answered f).2 := by
  induction n generalizing known with
  | zero => cases hn
  | succ n ih =>
    rw [rounds]
    rcases hreplay : s.replay known with ⟨r,_ | ⟨q,qs⟩⟩
    · refine iff_of_true ⟨List.nodup_nil,List.forall_mem_nil _⟩ (fun i => ?_)
      have hnil : missed f s known i = [] := missed_of_nil (by rw [hreplay]) i
      rw [hnil]
      exact ⟨List.nodup_nil,List.forall_mem_nil _⟩
    · have hmissed : (s.replay known).2 = q :: qs := by rw [hreplay]
      have hless := unknown_learn_lt hf hmissed
      have hrest := ih (hf.learn (q :: qs)) (by omega)
      have hcard : (unknown f s (Asking.learn f known (q :: qs))).card < n := by omega
      have hnew := (rounds_spec (hf.learn (q :: qs)) hcard).2.2
      have hsplit : (∀ i, (missed f s known i).Nodup ∧
          ∀ p ∈ missed f s known i, p ∈ (s.answered f).2) ↔
          ((q :: qs).Nodup ∧ ∀ p ∈ q :: qs, p ∈ (s.answered f).2) ∧
            ∀ i, (missed f s (Asking.learn f known (q :: qs)) i).Nodup ∧
              ∀ p ∈ missed f s (Asking.learn f known (q :: qs)) i, p ∈ (s.answered f).2 := by
        constructor
        · intro h
          have hfirst := h 0
          rw [missed,hmissed] at hfirst
          refine ⟨hfirst,fun i => ?_⟩
          have hnext := h (i + 1)
          rw [missed,hmissed] at hnext
          exact hnext
        · rintro ⟨hfirst,hnext⟩ (_ | i)
          · rw [missed,hmissed]
            exact hfirst
          · rw [missed,hmissed]
            exact hnext i
      have hapart : ∀ p ∈ q :: qs, ∀ p' ∈ (rounds f s n (Asking.learn f known (q :: qs))).2,
          p ≠ p' := by
        rintro p hp p' hp' rfl
        exact (learn_eq_none.mp (hnew p hp')).1 hp
      rw [hsplit,← hrest]
      change ((q :: qs ++ _).Nodup ∧ ∀ p ∈ q :: qs ++ _, _) ↔ _
      rw [List.nodup_append,List.forall_mem_append]
      constructor
      · rintro ⟨⟨hfirst,hnext,_⟩,hin,hin'⟩
        exact ⟨⟨hfirst,hin⟩,hnext,hin'⟩
      · rintro ⟨⟨hfirst,hin⟩,hnext,hin'⟩
        exact ⟨⟨hfirst,hnext,hapart⟩,hin,hin'⟩

end Rounds

/-! ## Computations that end when they miss -/

/-- A question whose answer is not known is the last one. -/
def EndsOnMiss : Asking Q A R → Prop
  | done _ => True
  | ask _ k => (∃ r, k none = done r) ∧ ∀ a, (k (some a)).EndsOnMiss

theorem EndsOnMiss.replay_length {s : Asking Q A R} (h : s.EndsOnMiss) (known : Q → Option A) :
    (s.replay known).2 = [] ∨ ∃ q, (s.replay known).2 = [q] := by
  induction s with
  | done r => exact .inl rfl
  | ask p k ih =>
    rw [replay]
    cases known p with
    | some a => exact ih (some a) (h.2 a)
    | none =>
      obtain ⟨r,hr⟩ := h.1
      exact .inr ⟨p,by rw [hr]; rfl⟩

theorem EndsOnMiss.missed [DecidableEq Q] {f : Q → A} {s : Asking Q A R} (h : s.EndsOnMiss)
    {known : Q → Option A} (hf : Knows f known) (i : ℕ) :
    (missed f s known i).Nodup ∧ ∀ q ∈ missed f s known i, q ∈ (s.answered f).2 := by
  induction i generalizing known with
  | zero =>
    rw [Asking.missed]
    rcases h.replay_length known with hnil | ⟨q,hq⟩
    · rw [hnil]
      exact ⟨List.nodup_nil,List.forall_mem_nil _⟩
    · rw [hq]
      exact ⟨List.nodup_singleton q,List.forall_mem_singleton.mpr (head_replay_mem hf hq)⟩
  | succ i ih => exact ih (hf.learn _)

end Asking
end Rullama.Replay

/-! ## Answers that are given once

The world need not answer a question twice in the same way. A replay that keeps every answer
it was given still comes to the computation with all its questions answered.
-/
namespace Rullama.Replay.Asking
variable {Q A R : Type*}

/-- Every answer that was given is this one. -/
def Gives (f : Q → A) (log : List (Q × A)) : Prop := ∀ p ∈ log, p.2 = f p.1

theorem Gives.left {f : Q → A} {log new : List (Q × A)} (h : Gives f (log ++ new)) :
    Gives f log :=
  fun p hp => h p (List.mem_append_left _ hp)

variable [DecidableEq Q]

/-- The first answer that was given. -/
def recalled (log : List (Q × A)) (q : Q) : Option A :=
  (log.find? (fun p => p.1 = q)).map Prod.snd

variable {f : Q → A} {log new : List (Q × A)} {s : Asking Q A R}

theorem recalled_eq_none {q : Q} : recalled log q = none ↔ q ∉ log.map Prod.fst := by
  rw [recalled,Option.map_eq_none_iff,List.find?_eq_none,List.mem_map,not_exists]
  refine forall_congr' fun p => ?_
  rw [decide_eq_true_eq,not_and]

theorem Gives.recalled_eq (h : Gives f log) (q : Q) :
    recalled log q = if q ∈ log.map Prod.fst then some (f q) else none := by
  by_cases hq : q ∈ log.map Prod.fst
  · rw [if_pos hq]
    cases hfind : recalled log q with
    | none => exact absurd hq (recalled_eq_none.mp hfind)
    | some a =>
      obtain ⟨p,hp,rfl⟩ := Option.map_eq_some_iff.mp hfind
      have hkey := List.find?_some hp
      rw [decide_eq_true_eq] at hkey
      rw [h p (List.mem_of_find?_eq_some hp),hkey]
  · rw [if_neg hq,recalled_eq_none.mpr hq]

theorem Gives.knows (h : Gives f log) : Knows f (recalled log) := by
  intro q a hq
  rw [h.recalled_eq] at hq
  split at hq
  · exact (Option.some.inj hq).symm
  · cases hq

theorem Gives.recalled_append (h : Gives f (log ++ new)) {qs : List Q}
    (hqs : ∀ q, q ∈ new.map Prod.fst ↔ q ∈ qs) :
    recalled (log ++ new) = learn f (recalled log) qs := by
  funext q
  rw [h.recalled_eq,learn,h.left.recalled_eq]
  simp only [List.map_append,List.mem_append,hqs]
  by_cases hnew : q ∈ qs
  · simp [hnew]
  · by_cases hold : q ∈ log.map Prod.fst
    · rw [if_pos (.inl hold),if_neg hnew,if_pos hold]
    · rw [if_neg (not_or.mpr ⟨hold,hnew⟩),if_neg hnew,if_neg hold]

/-! ## Sessions -/

/-- The answers to the questions of a round, in the order in which they come. -/
abbrev World (Q A : Type*) := ℕ → List Q → List (Q × A)

/-- Each of these questions that comes up in a round is asked once. -/
def World.Answers (world : World Q A) (P : Q → Prop) : Prop :=
  ∀ round qs, (∀ q ∈ qs, P q) → ((world round qs).map Prod.fst).Perm qs.dedup

structure Session (Q A R : Type*) where
  result : Option R
  log : List (Q × A)
  round : ℕ

section Session
variable (world : World Q A) (stops : R → Bool) (s : Asking Q A R)

/-- Replays in at most so many rounds, which a result can stop, with the number of the last. -/
def session : ℕ → ℕ → List (Q × A) → Session Q A R
  | 0, round, log => ⟨none,log,round⟩
  | n + 1, round, log =>
    match s.replay (recalled log) with
    | (r,[]) => ⟨some r,log,round⟩
    | (r,q :: qs) =>
      if stops r then ⟨some r,log,round⟩
      else session n (round + 1) (log ++ world round (q :: qs))

variable {world stops s} {P : Q → Prop}

theorem session_log (n round : ℕ) (log : List (Q × A)) :
    ∃ new, (session world stops s n round log).log = log ++ new := by
  induction n generalizing round log with
  | zero => exact ⟨[],(List.append_nil log).symm⟩
  | succ n ih =>
    rw [session]
    rcases s.replay (recalled log) with ⟨r,_ | ⟨q,qs⟩⟩
    · exact ⟨[],(List.append_nil log).symm⟩
    · dsimp only
      split
      · exact ⟨[],(List.append_nil log).symm⟩
      · obtain ⟨new,hnew⟩ := ih (round + 1) (log ++ world round (q :: qs))
        exact ⟨world round (q :: qs) ++ new,by rw [hnew,List.append_assoc]⟩

/-- A result that did not stop the session is that of the computation with the answers that
were given, and it has asked no other questions. -/
theorem session_sound {n round : ℕ} {log : List (Q × A)} {r : R}
    (hr : (session world stops s n round log).result = some r) (hgo : stops r = false)
    (hf : Gives f (session world stops s n round log).log) :
    r = (s.answered f).1 ∧
      ∀ q ∈ (s.answered f).2, q ∈ (session world stops s n round log).log.map Prod.fst := by
  induction n generalizing round log with
  | zero => cases hr
  | succ n ih =>
    rw [session] at hr hf ⊢
    rcases hreplay : s.replay (recalled log) with ⟨r',_ | ⟨q,qs⟩⟩
    · rw [hreplay] at hr hf
      cases hr
      obtain ⟨hresult,hall⟩ := replay_of_nil hf.knows (by rw [hreplay])
      rw [hreplay] at hresult
      refine ⟨hresult,fun p hp => ?_⟩
      by_contra hmem
      have hsome := hall p hp
      rw [recalled_eq_none.mpr hmem] at hsome
      cases hsome
    · rw [hreplay] at hr hf
      dsimp only at hr hf ⊢
      by_cases hstop : stops r' = true
      · rw [if_pos hstop] at hr
        cases hr
        rw [hgo] at hstop
        cases hstop
      · rw [if_neg hstop] at hr hf ⊢
        exact ih hr hf

/-- With more rounds than questions that are not known yet, and no result that stops it, a
session ends with a result, and has at most one round more than there are such questions. -/
theorem session_ends (hs : s.Asks P) (hworld : world.Answers P) (hgo : ∀ known,
    stops (s.replay known).1 = false) {n round : ℕ} {log : List (Q × A)}
    (hf : Gives f (session world stops s n round log).log)
    (hn : (unknown f s (recalled log)).card < n) :
    ∃ r, (session world stops s n round log).result = some r ∧ stops r = false ∧
      (session world stops s n round log).round ≤ round + (unknown f s (recalled log)).card := by
  induction n generalizing round log with
  | zero => cases hn
  | succ n ih =>
    rw [session] at hf ⊢
    have hcontinue := hgo (recalled log)
    rcases hreplay : s.replay (recalled log) with ⟨r,_ | ⟨q,qs⟩⟩
    · rw [hreplay] at hcontinue
      exact ⟨r,rfl,hcontinue,by dsimp only; omega⟩
    · rw [hreplay] at hcontinue hf
      dsimp only at hcontinue hf ⊢
      rw [hcontinue,if_neg Bool.false_ne_true] at hf ⊢
      obtain ⟨new,hnew⟩ : ∃ new, (session world stops s n (round + 1)
          (log ++ world round (q :: qs))).log = log ++ world round (q :: qs) ++ new :=
        session_log n (round + 1) _
      have hgives : Gives f (log ++ world round (q :: qs)) := (hnew ▸ hf).left
      have hmissed : (s.replay (recalled log)).2 = q :: qs := by rw [hreplay]
      have hasked : ∀ p ∈ q :: qs, P p := fun p hp => hs.mem_replay (hmissed ▸ hp)
      have hknown : recalled (log ++ world round (q :: qs)) = learn f (recalled log) (q :: qs) := by
        refine hgives.recalled_append fun p => ?_
        rw [(hworld round (q :: qs) hasked).mem_iff,List.mem_dedup]
      have hless := unknown_learn_lt hgives.left.knows hmissed
      rw [← hknown] at hless
      obtain ⟨r',hr,hstop,hrounds⟩ := ih hf (by omega)
      exact ⟨r',hr,hstop,by omega⟩

end Session
end Rullama.Replay.Asking
