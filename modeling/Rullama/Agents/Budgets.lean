import Rullama.Agents.Session

/-! # Budgets

The tokens that the calls of a session amount to, and the calls that an agent still makes once a
limit is exceeded: none after its own limit, and at most one after that of the session, since each
agent checks it only after a call.
-/
namespace Rullama.Agents
open Transition.Machine (exec_nil exec_cons exec_append run_append trail_nil trail_cons)

/-- The tokens of an answer of the provider. -/
def Event.tokens : Event → ℕ
  | .respond (.ok response) => response.totalTokens
  | _ => 0

/-- With this step the agent calls the provider. -/
def TaskAgent.calls (a : TaskAgent) : Event → Bool
  | .iterate elapsedSecs helpResponse => match (a.iterate elapsedSecs helpResponse).phase with
    | .calling => true
    | _ => false
  | _ => false

/-- The calls that an agent of a session makes in this phase and later, once the limit of the
session is exceeded. -/
def Phase.callsLeft : Phase → ℕ
  | .calling | .recording _ | .checking _ | .returned _ => 0
  | _ => 1

theorem Phase.callsLeft_le_one (phase : Phase) : phase.callsLeft ≤ 1 := by
  cases phase <;> simp [Phase.callsLeft]

variable {a b : TaskAgent} {n : ℕ}

/-! ## One agent -/

/-- A step from `a` to `b` whose answer has `n` tokens. -/
structure Advances (n : ℕ) (a b : TaskAgent) : Prop where
  config : b.config = a.config
  started : b.phase ≠ .idle
  tokens : b.totalTokensUsed = a.totalTokensUsed + n

/-- An agent that has not started has used nothing. -/
def Unused (a : TaskAgent) : Prop := a.phase = .idle → a.totalTokensUsed = 0

theorem Advances.unused (h : Advances n a b) : Unused b := fun hidle => absurd hidle h.started

theorem advances_start (h : a.totalTokensUsed = 0) (registers : Except String Unit)
    (checkpoint : Option (List String)) : Advances 0 a (a.start registers checkpoint) := by
  unfold TaskAgent.start
  split
  · exact ⟨rfl,nofun,rfl⟩
  · exact ⟨rfl,nofun,h.symm⟩

theorem advances_iterate (elapsedSecs : ℕ) (helpResponse : Option (String × String)) :
    Advances 0 a (a.iterate elapsedSecs helpResponse) := by
  simp only [TaskAgent.iterate]
  split
  · exact ⟨rfl,nofun,rfl⟩
  · split
    · exact ⟨rfl,nofun,rfl⟩
    · cases helpResponse with
      | none => exact ⟨rfl,nofun,rfl⟩
      | some p => exact ⟨rfl,nofun,rfl⟩

theorem advances_process (response : ChatResponse) : Advances 0 a (a.process response) := by
  simp only [TaskAgent.process]
  split
  · exact ⟨rfl,nofun,rfl⟩
  · exact ⟨rfl,nofun,rfl⟩

theorem advances_respond (response : Except String ChatResponse) :
    Advances (Event.respond response).tokens a (a.respond response) := by
  cases response with
  | error e => exact ⟨rfl,nofun,rfl⟩
  | ok response =>
    simp only [TaskAgent.respond]
    split
    · exact ⟨rfl,nofun,rfl⟩
    · split
      · exact ⟨rfl,nofun,rfl⟩
      · have h := advances_process
          (a := { a with totalTokensUsed := a.totalTokensUsed + response.totalTokens }) response
        exact ⟨h.config,h.started,h.tokens⟩

theorem advances_validate (messageText : String) (feedback : Option String) :
    Advances 0 a (a.validate messageText feedback) := by
  cases feedback with
  | none => exact ⟨rfl,nofun,rfl⟩
  | some text =>
    simp only [TaskAgent.validate]
    split
    · exact ⟨rfl,nofun,rfl⟩
    · exact ⟨rfl,nofun,rfl⟩

theorem advances_nextTool (pending : List Tools.ToolUse) :
    Advances 0 a (a.nextTool pending) := by
  cases pending with
  | nil => exact ⟨rfl,nofun,rfl⟩
  | cons t pending =>
    simp only [TaskAgent.nextTool]
    split
    · exact ⟨rfl,nofun,rfl⟩
    · split
      · exact ⟨rfl,nofun,rfl⟩
      · exact ⟨rfl,nofun,rfl⟩

theorem advances_next {e : Event} (he : machine.enabled a e) (hunused : Unused a) :
    Advances e.tokens a (machine.next a e) := by
  have hstep := step_of_enabled he
  generalize machine.next a e = b at hstep ⊢
  cases hstep with
  | start registers checkpoint ha => exact advances_start (hunused ha) registers checkpoint
  | iterate elapsedSecs helpResponse ha => exact advances_iterate elapsedSecs helpResponse
  | respond response ha => exact advances_respond response
  | record response ha => exact ⟨rfl,nofun,rfl⟩
  | check response error ha =>
    cases error with
    | none => exact advances_process response
    | some e => exact ⟨rfl,nofun,rfl⟩
  | validate messageText feedback ha => exact advances_validate messageText feedback
  | nextTool pending ha => exact advances_nextTool pending
  | lock t path lockType pending outcome ha =>
    cases outcome with
    | ok u => exact ⟨rfl,nofun,rfl⟩
    | error e => exact ⟨rfl,nofun,rfl⟩
  | toolDone t pending outcome persisted ha =>
    cases outcome with
    | ok r => exact ⟨rfl,nofun,rfl⟩
    | error e => exact ⟨rfl,nofun,rfl⟩

/-! ## The limit of an agent -/

/-- An agent that has used `n` tokens, and returned if these are too many. -/
structure Metered (n : ℕ) (a : TaskAgent) : Prop where
  tokens : a.totalTokensUsed = n
  unused : Unused a
  kept : a.overTokens = true → ∃ result, a.phase = .returned result

theorem respond_kept (response : ChatResponse) :
    (a.respond (.ok response)).overTokens = true →
      ∃ result, (a.respond (.ok response)).phase = .returned result := by
  intro h
  simp only [TaskAgent.respond] at h ⊢
  split
  · exact ⟨_,rfl⟩
  · rename_i hover
    rw [if_neg hover] at h
    refine absurd ?_ hover
    split at h
    · exact h
    · have hp := advances_process
        (a := { a with totalTokensUsed := a.totalTokensUsed + response.totalTokens }) response
      rw [TaskAgent.overTokens,hp.config,hp.tokens] at h
      exact h

theorem Metered.next (h : Metered n a) {e : Event} (he : machine.enabled a e) :
    Metered (n + e.tokens) (machine.next a e) := by
  have hadv := advances_next he h.unused
  refine ⟨by rw [hadv.tokens,h.tokens],hadv.unused,?_⟩
  have hquiet : e.tokens = 0 → (machine.next a e).overTokens = true →
      ∃ result, (machine.next a e).phase = .returned result := by
    intro htokens hover
    rw [TaskAgent.overTokens,hadv.config,hadv.tokens,htokens,Nat.add_zero] at hover
    obtain ⟨result,hreturned⟩ := h.kept hover
    exact absurd he (not_enabled_of_returned hreturned e)
  cases e with
  | respond response =>
    cases response with
    | ok response => exact respond_kept response
    | error e => exact hquiet rfl
  | _ => exact hquiet rfl

/-! ## The limit of a session -/

/-- Where the session has a limit that is exceeded, every check fails. -/
theorem callsLeft_next {e : Event} (he : machine.enabled a e)
    (hbudget : a.config.sessionBudget = true) (hcheck : e ≠ .check none) :
    (a.calls e).toNat + (machine.next a e).phase.callsLeft ≤ a.phase.callsLeft := by
  have hstep := step_of_enabled he
  generalize machine.next a e = b at hstep ⊢
  have hone := b.phase.callsLeft_le_one
  cases hstep with
  | iterate elapsedSecs helpResponse ha =>
    rw [ha,TaskAgent.calls]
    cases hphase : (a.iterate elapsedSecs helpResponse).phase <;> simp [Phase.callsLeft]
  | respond response ha =>
    rw [ha]
    cases response with
    | error e => exact Nat.le_refl 0
    | ok response =>
      simp only [TaskAgent.respond,hbudget,if_true]
      split
      · exact Nat.le_refl 0
      · exact Nat.le_refl 0
  | record response ha =>
    rw [ha]
    exact Nat.le_refl 0
  | check response error ha =>
    rw [ha]
    cases error with
    | none => exact absurd rfl hcheck
    | some e => exact Nat.le_refl 0
  | start registers checkpoint ha =>
    rw [ha]
    exact (Nat.zero_add _).trans_le hone
  | validate messageText feedback ha =>
    rw [ha]
    exact (Nat.zero_add _).trans_le hone
  | nextTool pending ha =>
    rw [ha]
    exact (Nat.zero_add _).trans_le hone
  | lock t path lockType pending outcome ha =>
    rw [ha]
    exact (Nat.zero_add _).trans_le hone
  | toolDone t pending outcome persisted ha =>
    rw [ha]
    exact (Nat.zero_add _).trans_le hone

theorem checkLimits_isSome {b : SessionBudget} {limit : ℕ} (hlimit : b.maxTotalTokens = some limit)
    (hover : limit < b.tokensUsed) : b.checkLimits.isSome = true := by
  simp [SessionBudget.checkLimits,hlimit,hover]

section Session

variable {ι : Type*} [DecidableEq ι]

/-- The tokens of the answers that an agent got. -/
def agentTokens (i : ι) : List (ι × Event) → ℕ
  | [] => 0
  | e :: es => (if e.1 = i then e.2.tokens else 0) + agentTokens i es

/-- The tokens that a step records in the budget. -/
def Session.recorded (s : Session ι) (e : ι × Event) : ℕ :=
  match e.2,(s.agents e.1).phase with
  | .record,.recording response => response.totalTokens
  | _,_ => 0

def recordedTokens (s : Session ι) (es : List (ι × Event)) : ℕ :=
  ((sessions.trail s es).map (fun p => p.1.recorded p.2)).sum

/-- How often an agent calls the provider in a run. -/
def providerCalls (i : ι) (s : Session ι) (es : List (ι × Event)) : ℕ :=
  ((sessions.trail s es).map (fun p =>
    if p.2.1 = i then ((p.1.agents i).calls p.2.2).toNat else 0)).sum

variable {s : Session ι} {e : ι × Event} {es : List (ι × Event)} {i : ι} {limit : ℕ}

theorem recordedTokens_cons :
    recordedTokens s (e :: es) = s.recorded e + recordedTokens (sessions.next s e) es := by
  rw [recordedTokens,trail_cons,List.map_cons,List.sum_cons,recordedTokens]

theorem recordedTokens_append {es' : List (ι × Event)} : recordedTokens s (es ++ es') =
    recordedTokens s es + recordedTokens (sessions.exec s es) es' := by
  induction es generalizing s with
  | nil => exact (Nat.zero_add _).symm
  | cons e es ih =>
    rw [List.cons_append,recordedTokens_cons,recordedTokens_cons,ih,exec_cons,Nat.add_assoc]

theorem providerCalls_cons : providerCalls i s (e :: es) =
    (if e.1 = i then ((s.agents i).calls e.2).toNat else 0) +
      providerCalls i (sessions.next s e) es := by
  rw [providerCalls,trail_cons,List.map_cons,List.sum_cons,providerCalls]

/-! ### The budget -/

theorem tokensUsed_next (h : s.budget.tokensUsed < 2 ^ 64) :
    (sessions.next s e).budget.tokensUsed = (s.budget.tokensUsed + s.recorded e) % 2 ^ 64 := by
  have hsame : s.budget.tokensUsed = (s.budget.tokensUsed + 0) % 2 ^ 64 :=
    (Nat.mod_eq_of_lt h).symm
  obtain ⟨i,e⟩ := e
  simp only [sessions,Session.charged,Session.recorded]
  cases e with
  | start registers checkpoint =>
    simp only
    split
    · exact hsame
    · split
      · exact hsame
      · exact hsame
  | record =>
    simp only
    cases (s.agents i).phase with
    | recording response => rfl
    | _ => exact hsame
  | _ => exact hsame

theorem tokensUsed_exec (h : s.budget.tokensUsed < 2 ^ 64) :
    (sessions.exec s es).budget.tokensUsed =
      (s.budget.tokensUsed + recordedTokens s es) % 2 ^ 64 := by
  induction es generalizing s with
  | nil => exact (Nat.mod_eq_of_lt h).symm
  | cons e es ih =>
    have hnext := tokensUsed_next (e := e) h
    have hlt : (sessions.next s e).budget.tokensUsed < 2 ^ 64 := by
      rw [hnext]
      exact Nat.mod_lt _ (by decide)
    rw [exec_cons,ih hlt,hnext,recordedTokens_cons,Nat.mod_add_mod,Nat.add_assoc]

theorem maxTotalTokens_next :
    (sessions.next s e).budget.maxTotalTokens = s.budget.maxTotalTokens := by
  obtain ⟨i,e⟩ := e
  simp only [sessions,Session.charged]
  cases e with
  | start registers checkpoint =>
    simp only
    split
    · rfl
    · split
      · rfl
      · rfl
  | record =>
    simp only
    split
    · rfl
    · rfl
  | _ => rfl

theorem maxTotalTokens_exec :
    (sessions.exec s es).budget.maxTotalTokens = s.budget.maxTotalTokens := by
  induction es generalizing s with
  | nil => rfl
  | cons e es ih => rw [exec_cons,ih,maxTotalTokens_next]

/-! ### The agents -/

theorem metered_exec (h : Metered n (s.agents i)) (hr : sessions.Run s es) :
    Metered (n + agentTokens i es) ((sessions.exec s es).agents i) := by
  induction es generalizing s n with
  | nil => exact h
  | cons e es ih =>
    obtain ⟨he,hr⟩ := hr
    rw [exec_cons,agentTokens,← Nat.add_assoc]
    refine ih ?_ hr
    by_cases hi : e.1 = i
    · subst hi
      rw [agents_next_self,if_pos rfl]
      exact h.next he.1
    · rw [agents_next_of_ne (Ne.symm hi),if_neg hi]
      exact h

theorem config_exec (h : Metered n (s.agents i)) (hr : sessions.Run s es) :
    ((sessions.exec s es).agents i).config = (s.agents i).config := by
  induction es generalizing s n with
  | nil => rfl
  | cons e es ih =>
    obtain ⟨he,hr⟩ := hr
    rw [exec_cons]
    by_cases hi : e.1 = i
    · subst hi
      have hmetered := h.next he.1
      rw [← agents_next_self] at hmetered
      rw [ih hmetered hr,agents_next_self,(advances_next he.1 h.unused).config]
    · have hsame : (sessions.next s e).agents i = s.agents i := agents_next_of_ne (Ne.symm hi)
      rw [← hsame] at h
      rw [ih h hr,hsame]

theorem providerCalls_of_returned {result : Except String TaskAgentResult}
    (h : (s.agents i).phase = .returned result) (hr : sessions.Run s es) :
    providerCalls i s es = 0 := by
  induction es generalizing s with
  | nil => rfl
  | cons e es ih =>
    obtain ⟨he,hr⟩ := hr
    have hi : e.1 ≠ i := by
      rintro rfl
      exact not_enabled_of_returned h e.2 he.1
    rw [providerCalls_cons,if_neg hi,Nat.zero_add]
    refine ih ?_ hr
    rw [agents_next_of_ne hi.symm]
    exact h

theorem providerCalls_le (hunused : Unused (s.agents i)) (hr : sessions.Run s es)
    (hbudget : (s.agents i).config.sessionBudget = true)
    (hlimit : s.budget.maxTotalTokens = some limit) (hover : limit < s.budget.tokensUsed)
    (hwrap : s.budget.tokensUsed + recordedTokens s es < 2 ^ 64) :
    providerCalls i s es ≤ (s.agents i).phase.callsLeft := by
  induction es generalizing s with
  | nil => exact Nat.zero_le _
  | cons e es ih =>
    obtain ⟨he,hr⟩ := hr
    rw [recordedTokens_cons] at hwrap
    have hused : (sessions.next s e).budget.tokensUsed = s.budget.tokensUsed + s.recorded e := by
      rw [tokensUsed_next (by omega)]
      exact Nat.mod_eq_of_lt (by omega)
    have hrest : Unused ((sessions.next s e).agents i) →
        ((sessions.next s e).agents i).config.sessionBudget = true →
        providerCalls i (sessions.next s e) es ≤
          ((sessions.next s e).agents i).phase.callsLeft := fun hunused hbudget =>
      ih hunused hr hbudget (maxTotalTokens_next.trans hlimit) (by omega) (by omega)
    rw [providerCalls_cons]
    by_cases hi : e.1 = i
    · subst hi
      rw [agents_next_self] at hrest
      have hadv := advances_next he.1 hunused
      have hcheck : e.2 ≠ .check none := by
        intro hevent
        have hanswer := he.2
        rw [hevent,Session.answers,checkLimits_isSome hlimit hover] at hanswer
        cases hanswer
      have hstep := callsLeft_next he.1 hbudget hcheck
      have hcalls := hrest hadv.unused (by rw [hadv.config]; exact hbudget)
      rw [if_pos rfl]
      omega
    · rw [agents_next_of_ne (Ne.symm hi)] at hrest
      rw [if_neg hi,Nat.zero_add]
      exact hrest hunused hbudget

omit [DecidableEq ι] in
theorem metered_of_fresh (h : s.Fresh) : Metered 0 (s.agents i) := by
  obtain ⟨hphase,-,htokens⟩ := h i
  refine ⟨htokens,fun _ => htokens,fun hover => ?_⟩
  rw [TaskAgent.overTokens,htokens] at hover
  split at hover
  · cases hover
  · exact absurd (of_decide_eq_true hover) (Nat.not_lt_zero _)

/-- The recorded tokens add up. An agent whose answers exceed its limit calls no more, and once the
recorded tokens exceed the limit of the session, its agents call no more after a call that is under
way, and the others at most once. -/
theorem budgets_enforced (hs : s.Fresh) (hbudget : s.budget.tokensUsed = 0)
    {es₁ es₂ : List (ι × Event)} (hr : sessions.Run s (es₁ ++ es₂)) :
    (sessions.exec s es₁).budget.tokensUsed = recordedTokens s es₁ % 2 ^ 64 ∧
    (∀ i limit, (s.agents i).config.maxTotalTokens = some limit → limit < agentTokens i es₁ →
      providerCalls i (sessions.exec s es₁) es₂ = 0) ∧
    ∀ i limit, (s.agents i).config.sessionBudget = true → s.budget.maxTotalTokens = some limit →
      limit < recordedTokens s es₁ → recordedTokens s (es₁ ++ es₂) < 2 ^ 64 →
      providerCalls i (sessions.exec s es₁) es₂ ≤
        ((sessions.exec s es₁).agents i).phase.callsLeft := by
  obtain ⟨hr₁,hr₂⟩ := (sessions.run_append).mp hr
  have hused : (sessions.exec s es₁).budget.tokensUsed = recordedTokens s es₁ % 2 ^ 64 := by
    rw [tokensUsed_exec (by omega),hbudget,Nat.zero_add]
  have hmetered : ∀ i, Metered (0 + agentTokens i es₁) ((sessions.exec s es₁).agents i) :=
    fun i => metered_exec (metered_of_fresh hs) hr₁
  have hconfig : ∀ i, ((sessions.exec s es₁).agents i).config = (s.agents i).config :=
    fun i => config_exec (metered_of_fresh hs) hr₁
  refine ⟨hused,fun i limit hlimit hover => ?_,fun i limit hsession hlimit hover hwrap => ?_⟩
  · have hkept := (hmetered i).kept
    rw [TaskAgent.overTokens,hconfig,hlimit,(hmetered i).tokens,Nat.zero_add] at hkept
    obtain ⟨result,hreturned⟩ := hkept (decide_eq_true hover)
    exact providerCalls_of_returned hreturned hr₂
  · have hsum : recordedTokens s (es₁ ++ es₂) =
        recordedTokens s es₁ + recordedTokens (sessions.exec s es₁) es₂ := recordedTokens_append
    rw [Nat.mod_eq_of_lt (by omega)] at hused
    exact providerCalls_le (hmetered i).unused hr₂ (by rw [hconfig]; exact hsession)
      (maxTotalTokens_exec.trans hlimit) (by omega) (by omega)

end Session

/-- Three agents, with a limit of 200 tokens each and of 100 for the session. -/
def team : Session (Fin 3) :=
  { agents := fun _ =>
      { id := "agent",task := ⟨"task","Keep the notes.",0⟩
        config := { maxTotalTokens := some 200,sessionBudget := true } }
    budget := { maxTotalTokens := some 100 } }

def answered (i : Fin 3) (tokens : ℕ) : List (Fin 3 × Event) :=
  [(i,.start (.ok ()) none),(i,.iterate 0 none),
    (i,.respond (.ok { message := .assistant "Hello.",totalTokens := tokens }))]

/-- The first agent exceeds its own limit, and the second the one of the session. -/
def exceeding : List (Fin 3 × Event) :=
  answered 0 250 ++ answered 1 150 ++ [(1,.record),(1,.check (some "token budget exceeded"))]

/-- The third one starts. -/
def lateCall : List (Fin 3 × Event) := [(2,.start (.ok ()) none),(2,.iterate 0 none)]

theorem lateCall_bounded :
    (sessions.exec team exceeding).budget.tokensUsed = recordedTokens team exceeding % 2 ^ 64 ∧
    providerCalls 0 (sessions.exec team exceeding) lateCall = 0 ∧
    providerCalls 2 (sessions.exec team exceeding) lateCall ≤ 1 := by
  have hr : sessions.Run team (exceeding ++ lateCall) :=
    ⟨⟨rfl,trivial⟩,⟨rfl,trivial⟩,⟨rfl,trivial⟩,⟨rfl,trivial⟩,⟨rfl,trivial⟩,⟨rfl,trivial⟩,
      ⟨rfl,trivial⟩,⟨rfl,rfl⟩,⟨rfl,trivial⟩,⟨rfl,trivial⟩,trivial⟩
  have h := budgets_enforced (fun _ => ⟨rfl,rfl,rfl⟩) rfl hr
  exact ⟨h.1,h.2.1 0 200 rfl (by decide),h.2.2 2 100 rfl rfl (by decide) (by decide)⟩

/-- Once the limit of the session is exceeded, another of its agents makes a call. -/
theorem lateCall_made : team.Fresh ∧ sessions.Run team (exceeding ++ lateCall) ∧
    (team.agents 2).config.sessionBudget = true ∧ team.budget.maxTotalTokens = some 100 ∧
    recordedTokens team exceeding = 150 ∧
    ¬ providerCalls 2 (sessions.exec team exceeding) lateCall = 0 :=
  ⟨fun _ => ⟨rfl,rfl,rfl⟩,
    ⟨⟨rfl,trivial⟩,⟨rfl,trivial⟩,⟨rfl,trivial⟩,⟨rfl,trivial⟩,⟨rfl,trivial⟩,⟨rfl,trivial⟩,
      ⟨rfl,trivial⟩,⟨rfl,rfl⟩,⟨rfl,trivial⟩,⟨rfl,trivial⟩,trivial⟩,
    rfl,rfl,by decide,by decide⟩

end Rullama.Agents
