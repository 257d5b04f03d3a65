import Rullama.Transition.Machine
import Mathlib.Data.List.Nodup
import Mathlib.Data.List.Perm.Basic
import Mathlib.Logic.Function.Basic
import Mathlib.Logic.Relation

/-! # Hibernating and resuming agents

Two commands, each in a process of its own, share one manifest: the first tells all running
agents to exit and records them, the second starts the recorded ones again. Agents start and
exit between the commands.
-/
namespace Rullama.Agent
open Transition

structure AgentMetadata where
  sessionId : String
  model : String
  workingDirectory : String
  parentAgentId : Option String
  spawnReason : Option String
  isBusy : Bool
deriving DecidableEq

structure HibernatedSession where
  sessionId : String
  model : String
  workingDirectory : String
  parentAgentId : Option String
  spawnReason : Option String
  wasBusy : Bool
deriving DecidableEq

def AgentMetadata.hibernated (agent : AgentMetadata) : HibernatedSession where
  sessionId := agent.sessionId
  model := agent.model
  workingDirectory := agent.workingDirectory
  parentAgentId := agent.parentAgentId
  spawnReason := agent.spawnReason
  wasBusy := agent.isBusy

/-- How the attempt to tell an agent to exit went. -/
inductive DetachOutcome where
  | noToken
  | unreachable
  | handshakeFailed
  | rejected
  | detachFailed
  | detached
deriving DecidableEq

structure Visit where
  agent : AgentMetadata
  outcome : DetachOutcome
deriving DecidableEq

/-! ## Spawning -/

structure SpawnOptions where
  model : Option String
  parentAgentId : Option String
  spawnReason : Option String
  workingDirectory : Option String
deriving DecidableEq

/-- What the spawn of one agent meets: the depth of its parent, and whether its process comes
up. -/
structure SpawnOutcome where
  parentDepth : Except String ℕ
  launch : Except String String

def maxAgentDepth : ℕ := 5

def depthReached (parentId : String) (depth : ℕ) : String :=
  "Maximum agent depth (" ++ toString maxAgentDepth ++ ") reached. Cannot spawn more children. " ++
    "Current parent '" ++ parentId ++ "' is at depth " ++ toString depth ++ "."

/-- `spawn_agent_process_with_options` -/
def spawnAgentProcess (options : SpawnOptions) (outcome : SpawnOutcome) : Except String String :=
  match options.parentAgentId with
  | none => outcome.launch
  | some parentId =>
    match outcome.parentDepth with
    | .error e => .error e
    | .ok depth => if maxAgentDepth ≤ depth then .error (depthReached parentId depth)
      else outcome.launch

def HibernatedSession.options (session : HibernatedSession) : SpawnOptions where
  model := some session.model
  parentAgentId := session.parentAgentId
  spawnReason := session.spawnReason
  workingDirectory :=
    if session.workingDirectory = "" then none else some session.workingDirectory

def succeeds (result : Except String String) : Bool :=
  match result with
  | .ok _ => true
  | .error _ => false

/-! ## The order of a resume -/

/-- Agents without parents come first. -/
def hierarchyOrder (a b : HibernatedSession) : Ordering :=
  match a.parentAgentId, b.parentAgentId with
  | none, some _ => .lt
  | some _, none => .gt
  | _, _ => .eq

def sortedSessions (sessions : List HibernatedSession) : List HibernatedSession :=
  sessions.mergeSort (fun a b => (hierarchyOrder a b).isLE)

/-! ## The sessions and the manifest -/

/-- A session that a hibernate has told to exit is leaving, and then down. -/
inductive Phase where
  | none
  | up
  | leaving
  | down
deriving DecidableEq

structure Sessions where
  phase : String → Phase := fun _ => .none
  manifest : Option (List HibernatedSession) := none

namespace Sessions
variable (s : Sessions)

def isAlive (sessionId : String) : Bool :=
  s.phase sessionId = .up || s.phase sessionId = .leaving

def setPhase (sessionId : String) (phase : Phase) : Sessions :=
  { s with phase := Function.update s.phase sessionId phase }

def found (visits : List Visit) : List Visit := visits.filter (fun v => s.isAlive v.agent.sessionId)

/-- The sessions that a hibernate returns. -/
def hibernated (visits : List Visit) : List String :=
  ((s.found visits).filter (fun v => v.outcome = .detached)).map (fun v => v.agent.sessionId)

def recorded (visits : List Visit) : List HibernatedSession :=
  (s.found visits).map (fun v => v.agent.hibernated)

/-- The phases when these have been told to exit. -/
def detach (hibernated : List String) : String → Phase :=
  fun sessionId => if sessionId ∈ hibernated then .leaving else s.phase sessionId

/-- The agents that are listed are told to exit before the manifest is saved. -/
def hibernateAgents (listed : Except String (List Visit)) (saved : Except String Unit) :
    Sessions × Except String (List String) :=
  match listed with
  | .error e => (s,.error e)
  | .ok visits =>
    let hibernated := s.hibernated visits
    let t := { s with phase := s.detach hibernated }
    match saved with
    | .error e => (t,.error e)
    | .ok () => ({ t with manifest := some (s.recorded visits) },.ok hibernated)

/-- The body of the loop in `resume_agents`: the sessions, and whether this one is resumed. -/
def resumeSession (spawns : String → SpawnOutcome) (session : HibernatedSession) :
    Sessions × Bool :=
  if s.isAlive session.sessionId then (s,true)
  else if succeeds (spawnAgentProcess session.options (spawns session.sessionId)) then
    (s.setPhase session.sessionId .up,true)
  else (s,false)

def resumeAll (spawns : String → SpawnOutcome) :
    Sessions → List HibernatedSession → Sessions × List String
  | s, [] => (s,[])
  | s, session :: sessions =>
    let (t,resumed) := s.resumeSession spawns session
    let (t,others) := resumeAll spawns t sessions
    (t,if resumed then session.sessionId :: others else others)

/-- `HibernateManifest::load`, which does not read where there is no file -/
def load (read : Except String Unit) : Except String (Option (List HibernatedSession)) :=
  match s.manifest, read with
  | none, _ => .ok none
  | some _, .error e => .error e
  | some sessions, .ok () => .ok (some sessions)

def resumeAgents (read : Except String Unit) (spawns : String → SpawnOutcome)
    (deleted : Except String Unit) : Sessions × Except String (List String) :=
  match s.load read with
  | .error e => (s,.error e)
  | .ok none => (s,.ok [])
  | .ok (some sessions) =>
    let (t,resumed) := resumeAll spawns s (sortedSessions sessions)
    match deleted with
    | .error e => (t,.error e)
    | .ok () => ({ t with manifest := none },.ok resumed)

end Sessions

inductive HibernateEvent where
  /-- started by a user, or coming up after a spawn that was given up -/
  | starts (sessionId : String)
  | exits (sessionId : String)
  /-- a viewer detaches with `exit_when_done` off -/
  | recalled (sessionId : String)
  | hibernate (listed : Except String (List Visit)) (saved : Except String Unit)
  | resume (read : Except String Unit) (spawns : String → SpawnOutcome)
      (deleted : Except String Unit)

namespace Sessions
variable (s : Sessions)

def next : HibernateEvent → Sessions
  | .starts sessionId => s.setPhase sessionId .up
  | .exits sessionId =>
    s.setPhase sessionId (if s.phase sessionId = .leaving then .down else .none)
  | .recalled sessionId => s.setPhase sessionId .up
  | .hibernate listed saved => (s.hibernateAgents listed saved).1
  | .resume read spawns deleted => (s.resumeAgents read spawns deleted).1

/-- A hibernate lists each session once: its metadata is in a file of its own. -/
def Enabled : HibernateEvent → Prop
  | .starts sessionId => s.isAlive sessionId = false
  | .exits sessionId => s.isAlive sessionId = true
  | .recalled sessionId => s.phase sessionId = .leaving
  | .hibernate (.ok visits) _ => (visits.map (fun v => v.agent.sessionId)).Nodup
  | .hibernate (.error _) _ => True
  | .resume _ _ _ => True

/-- The session was shut down by a hibernate and has not been started since. -/
def Owed (sessionId : String) : Prop := s.phase sessionId = .leaving ∨ s.phase sessionId = .down

def Recorded (sessionId : String) : Prop :=
  ∃ sessions, s.manifest = some sessions ∧ ∃ x ∈ sessions, x.sessionId = sessionId

/-- Every session that was shut down is running again or still in the manifest. -/
def Kept : Prop := ∀ sessionId, s.Owed sessionId → s.Recorded sessionId

end Sessions

def hibernation : Machine Sessions HibernateEvent where
  enabled := Sessions.Enabled
  next := Sessions.next

/-! ## Parents first -/

/-- In a list without repetition, the first comes before the second. -/
def Before {α : Type*} (l : List α) (a b : α) : Prop := [a,b].Sublist l

def ParentOf (sessions : List HibernatedSession) (a b : HibernatedSession) : Prop :=
  a ∈ sessions ∧ b ∈ sessions ∧ b.parentAgentId = some a.sessionId

/-- A resume comes to every parent before its descendants. -/
def ParentsFirst (sessions : List HibernatedSession) : Prop :=
  ∀ a b, Relation.TransGen (ParentOf sessions) a b → Before (sortedSessions sessions) a b

/-- A parent that has a parent itself is recorded before its children. -/
def ListedFirst (sessions : List HibernatedSession) : Prop :=
  ∀ a b, ParentOf sessions a b → a.parentAgentId.isSome = true → Before sessions a b

/-- The steps that lose nothing: a hibernate saves, and every session an earlier one shut
down is still on its way out and found by this one; a resume that deletes the manifest finds
none on its way out, and starts all that were shut down. -/
def Sessions.Saves (s : Sessions) : HibernateEvent → Prop
  | .hibernate (.ok visits) (.ok _) => ∀ sessionId, s.Owed sessionId →
      s.phase sessionId = .leaving ∧ sessionId ∈ visits.map (fun v => v.agent.sessionId)
  | .hibernate (.ok visits) (.error _) => ∀ sessionId ∈ s.hibernated visits, s.Recorded sessionId
  | .resume read spawns deleted => ∀ sessions, s.load read = .ok (some sessions) →
      ListedFirst sessions ∧ (deleted = .ok () → ∀ x ∈ sessions, s.Owed x.sessionId →
        s.phase x.sessionId = .down ∧
          succeeds (spawnAgentProcess x.options (spawns x.sessionId)) = true)
  | _ => True

/-- The step loses no session, and a resume comes to parents first. -/
def Sessions.Safe (s : Sessions) (e : HibernateEvent) : Prop :=
  (s.next e).Kept ∧
    match e with
    | .resume read _ _ => ∀ sessions, s.load read = .ok (some sessions) → ParentsFirst sessions
    | _ => True

/-! ### Lists without repetition -/

section Before
variable {α : Type*} {l : List α} {a b c : α}

theorem before_cons {x : α} : Before (x :: l) a b ↔ Before l a b ∨ a = x ∧ b ∈ l := by
  rw [Before,List.cons_sublist_cons',List.singleton_sublist]
  rfl

theorem Before.mem (h : Before l a b) : a ∈ l ∧ b ∈ l :=
  ⟨h.subset List.mem_cons_self,h.subset (.tail _ (.head _))⟩

theorem before_total (ha : a ∈ l) (hb : b ∈ l) (hne : a ≠ b) : Before l a b ∨ Before l b a := by
  induction l with
  | nil => cases ha
  | cons x l ih =>
    rw [before_cons,before_cons]
    rcases List.mem_cons.mp ha with rfl | ha'
    · rcases List.mem_cons.mp hb with rfl | hb'
      · exact absurd rfl hne
      · exact .inl (.inr ⟨rfl,hb'⟩)
    · rcases List.mem_cons.mp hb with rfl | hb'
      · exact .inr (.inr ⟨rfl,ha'⟩)
      · rcases ih ha' hb' with h | h
        · exact .inl (.inl h)
        · exact .inr (.inl h)

theorem Before.asymm (hl : l.Nodup) (h : Before l a b) : ¬ Before l b a := by
  induction l with
  | nil => cases h
  | cons x l ih =>
    obtain ⟨hx,hl⟩ := List.nodup_cons.mp hl
    rw [before_cons] at h ⊢
    rintro (hba | ⟨rfl,ha⟩)
    · rcases h with h | ⟨rfl,_⟩
      · exact ih hl h hba
      · exact hx hba.mem.2
    · rcases h with h | ⟨rfl,_⟩
      · exact hx h.mem.2
      · exact hx ha

theorem Before.trans (hl : l.Nodup) (h : Before l a b) (h' : Before l b c) : Before l a c := by
  induction l with
  | nil => cases h
  | cons x l ih =>
    obtain ⟨hx,hl⟩ := List.nodup_cons.mp hl
    rw [before_cons] at h h' ⊢
    rcases h' with h' | ⟨rfl,_⟩
    · rcases h with h | ⟨rfl,_⟩
      · exact .inl (ih hl h h')
      · exact .inr ⟨rfl,h'.mem.2⟩
    · rcases h with h | ⟨rfl,hb⟩
      · exact absurd h.mem.2 hx
      · exact absurd hb hx

end Before

/-! ### The order of a resume -/

variable {sessions : List HibernatedSession} {a b : HibernatedSession}

/-- Only an agent without a parent goes before one that has a parent whatever the listing. -/
theorem isLE_eq_false_iff : (hierarchyOrder a b).isLE = false ↔
    a.parentAgentId.isSome = true ∧ b.parentAgentId = none := by
  unfold hierarchyOrder
  cases a.parentAgentId with
  | none => cases b.parentAgentId <;> simp
  | some p => cases b.parentAgentId <;> simp

theorem isLE_trans (a b c : HibernatedSession) (hab : (hierarchyOrder a b).isLE = true)
    (hbc : (hierarchyOrder b c).isLE = true) : (hierarchyOrder a c).isLE = true := by
  by_contra hac
  obtain ⟨ha,hc⟩ := isLE_eq_false_iff.mp ((Bool.not_eq_true _).mp hac)
  cases hb : b.parentAgentId with
  | none =>
    rw [isLE_eq_false_iff.mpr ⟨ha,hb⟩] at hab
    cases hab
  | some p =>
    rw [isLE_eq_false_iff.mpr ⟨by rw [hb]; rfl,hc⟩] at hbc
    cases hbc

theorem isLE_total (a b : HibernatedSession) :
    ((hierarchyOrder a b).isLE || (hierarchyOrder b a).isLE) = true := by
  cases hab : (hierarchyOrder a b).isLE with
  | true => rfl
  | false =>
    obtain ⟨ha,hb⟩ := isLE_eq_false_iff.mp hab
    by_contra hba
    rw [Bool.false_or,Bool.not_eq_true] at hba
    have hsome := (isLE_eq_false_iff.mp hba).1
    rw [hb] at hsome
    cases hsome

theorem sortedSessions_perm : (sortedSessions sessions).Perm sessions :=
  List.mergeSort_perm sessions _

/-- The sort keeps the listing of what it does not tell apart. -/
theorem before_sorted (h : Before sessions a b) (hle : (hierarchyOrder a b).isLE = true) :
    Before (sortedSessions sessions) a b :=
  List.pair_sublist_mergeSort isLE_trans isLE_total hle h

theorem isLE_of_before (h : Before (sortedSessions sessions) a b) :
    (hierarchyOrder a b).isLE = true :=
  List.pairwise_iff_forall_sublist.mp (List.pairwise_mergeSort isLE_trans isLE_total sessions) h

theorem before_sorted_of_root (ha : a ∈ sessions) (hb : b ∈ sessions)
    (hroot : a.parentAgentId = none) (hchild : b.parentAgentId.isSome = true) :
    Before (sortedSessions sessions) a b := by
  have hne : a ≠ b := by
    rintro rfl
    rw [hroot] at hchild
    cases hchild
  rcases before_total (sortedSessions_perm.mem_iff.mpr ha) (sortedSessions_perm.mem_iff.mpr hb)
    hne with h | h
  · exact h
  · have hle := isLE_of_before h
    rw [isLE_eq_false_iff.mpr ⟨hchild,hroot⟩] at hle
    cases hle

theorem parentsFirst_iff (hnodup : sessions.Nodup) :
    ParentsFirst sessions ↔ ListedFirst sessions := by
  have hsorted : (sortedSessions sessions).Nodup := sortedSessions_perm.nodup_iff.mpr hnodup
  constructor
  · intro h a b hparent ha
    have hbefore := h a b (.single hparent)
    have hne : a ≠ b := by
      rintro rfl
      exact hbefore.asymm hsorted hbefore
    rcases before_total hparent.1 hparent.2.1 hne with hab | hba
    · exact hab
    · have hle : (hierarchyOrder b a).isLE = true := by
        by_contra hgt
        have hnone := (isLE_eq_false_iff.mp ((Bool.not_eq_true _).mp hgt)).2
        rw [hnone] at ha
        cases ha
      exact absurd (before_sorted hba hle) (hbefore.asymm hsorted)
  · intro h a b hancestor
    have hstep : ∀ a b, ParentOf sessions a b → Before (sortedSessions sessions) a b := by
      intro a b hparent
      have hchild : b.parentAgentId.isSome = true := by rw [hparent.2.2]; rfl
      cases ha : a.parentAgentId with
      | none => exact before_sorted_of_root hparent.1 hparent.2.1 ha hchild
      | some p =>
        have hle : (hierarchyOrder a b).isLE = true := by
          by_contra hgt
          have hnone := (isLE_eq_false_iff.mp ((Bool.not_eq_true _).mp hgt)).2
          rw [hnone] at hchild
          cases hchild
        exact before_sorted (h a b hparent (by rw [ha]; rfl)) hle
    induction hancestor with
    | single hparent => exact hstep _ _ hparent
    | tail _ hparent ih => exact ih.trans hsorted (hstep _ _ hparent)

/-! ## One step -/

namespace Sessions
variable {s : Sessions} {spawns : String → SpawnOutcome} {x : HibernatedSession}

/-- No session is twice in the manifest. -/
def Distinct (s : Sessions) : Prop :=
  ∀ sessions, s.manifest = some sessions → (sessions.map (fun x => x.sessionId)).Nodup

theorem load_eq_some {read : Except String Unit} (h : s.load read = .ok (some sessions)) :
    s.manifest = some sessions := by
  unfold load at h
  split at h
  · cases h
  · cases h
  · next hmanifest =>
    cases h
    exact hmanifest

theorem next_resume {read : Except String Unit} (h : s.load read = .ok (some sessions))
    (spawns : String → SpawnOutcome) : s.next (.resume read spawns (.ok ())) =
      { (resumeAll spawns s (sortedSessions sessions)).1 with manifest := none } := by
  simp only [next,resumeAgents,h]

theorem resumeSession_eq : (s.resumeSession spawns x).1 =
    if s.isAlive x.sessionId = false ∧
        succeeds (spawnAgentProcess x.options (spawns x.sessionId)) = true then
      s.setPhase x.sessionId .up
    else s := by
  unfold resumeSession
  by_cases halive : s.isAlive x.sessionId = true
  · rw [if_pos halive,if_neg (fun h => by rw [h.1] at halive; cases halive)]
  · rw [if_neg halive]
    have hdead : s.isAlive x.sessionId = false := (Bool.not_eq_true _).mp halive
    split
    · next hspawned => rw [if_pos ⟨hdead,hspawned⟩]
    · next hfailed => rw [if_neg (fun h => hfailed h.2)]

theorem resumeSession_manifest : (s.resumeSession spawns x).1.manifest = s.manifest := by
  rw [resumeSession_eq]
  split <;> rfl

theorem resumeSession_phase_of_ne {sessionId : String} (h : sessionId ≠ x.sessionId) :
    (s.resumeSession spawns x).1.phase sessionId = s.phase sessionId := by
  rw [resumeSession_eq]
  split
  · exact Function.update_of_ne h _ _
  · rfl

/-- What becomes of a session depends on its own phase alone. -/
theorem resumeSession_phase_congr {t : Sessions}
    (h : t.phase x.sessionId = s.phase x.sessionId) :
    (t.resumeSession spawns x).1.phase x.sessionId =
      (s.resumeSession spawns x).1.phase x.sessionId := by
  have halive : t.isAlive x.sessionId = s.isAlive x.sessionId := by rw [isAlive,isAlive,h]
  rw [resumeSession_eq,resumeSession_eq,halive]
  split
  · simp only [setPhase,Function.update_self]
  · exact h

theorem resumeAll_cons : (resumeAll spawns s (x :: sessions)).1 =
    (resumeAll spawns (s.resumeSession spawns x).1 sessions).1 := rfl

theorem resumeAll_manifest : (resumeAll spawns s sessions).1.manifest = s.manifest := by
  induction sessions generalizing s with
  | nil => rfl
  | cons x sessions ih => rw [resumeAll_cons,ih,resumeSession_manifest]

theorem resumeAll_phase_of_notMem {sessionId : String}
    (h : sessionId ∉ sessions.map (fun x => x.sessionId)) :
    (resumeAll spawns s sessions).1.phase sessionId = s.phase sessionId := by
  induction sessions generalizing s with
  | nil => rfl
  | cons x sessions ih =>
    rw [List.map_cons,List.mem_cons,not_or] at h
    rw [resumeAll_cons,ih h.2,resumeSession_phase_of_ne h.1]

theorem resumeAll_phase_of_mem (hnodup : (sessions.map (fun x => x.sessionId)).Nodup)
    (hx : x ∈ sessions) : (resumeAll spawns s sessions).1.phase x.sessionId =
      (s.resumeSession spawns x).1.phase x.sessionId := by
  induction sessions generalizing s with
  | nil => cases hx
  | cons y sessions ih =>
    rw [List.map_cons,List.nodup_cons] at hnodup
    rw [resumeAll_cons]
    rcases List.mem_cons.mp hx with rfl | hx
    · exact resumeAll_phase_of_notMem hnodup.1
    · have hne : x.sessionId ≠ y.sessionId := by
        intro heq
        exact hnodup.1 (List.mem_map.mpr ⟨x,hx,heq⟩)
      rw [ih hnodup.2 hx]
      exact resumeSession_phase_congr (resumeSession_phase_of_ne hne)

/-- A session that was shut down stays so unless its agent has exited and comes up again. -/
theorem not_owed_resumeSession_iff (howed : s.Owed x.sessionId) :
    ¬ (s.resumeSession spawns x).1.Owed x.sessionId ↔ s.phase x.sessionId = .down ∧
      succeeds (spawnAgentProcess x.options (spawns x.sessionId)) = true := by
  rw [resumeSession_eq]
  rcases howed with hleaving | hdown
  · have halive : s.isAlive x.sessionId = true := by simp [isAlive,hleaving]
    simp [halive,Owed,hleaving]
  · have hdead : s.isAlive x.sessionId = false := by simp [isAlive,hdown]
    by_cases hspawned : succeeds (spawnAgentProcess x.options (spawns x.sessionId)) = true
    · simp [hdead,hspawned,hdown,Owed,setPhase]
    · simp [hdead,hspawned,hdown,Owed]

theorem owed_of_resumeSession (h : (s.resumeSession spawns x).1.Owed x.sessionId) :
    s.Owed x.sessionId := by
  rw [resumeSession_eq] at h
  split at h
  · simp [Owed,setPhase] at h
  · exact h

theorem owed_of_resumeAll (hnodup : (sessions.map (fun x => x.sessionId)).Nodup)
    {sessionId : String} (h : (resumeAll spawns s sessions).1.Owed sessionId) :
    s.Owed sessionId := by
  by_cases hmem : sessionId ∈ sessions.map (fun x => x.sessionId)
  · obtain ⟨x,hx,rfl⟩ := List.mem_map.mp hmem
    rw [Owed,resumeAll_phase_of_mem hnodup hx] at h
    exact owed_of_resumeSession h
  · rwa [Owed,resumeAll_phase_of_notMem hmem] at h

theorem Distinct.sorted (h : s.Distinct) (hmanifest : s.manifest = some sessions) :
    ((sortedSessions sessions).map (fun x => x.sessionId)).Nodup :=
  (sortedSessions_perm.map _).nodup_iff.mpr (h sessions hmanifest)

theorem Distinct.parentsFirst_iff (h : s.Distinct) (hmanifest : s.manifest = some sessions) :
    ParentsFirst sessions ↔ ListedFirst sessions :=
  Agent.parentsFirst_iff (List.Nodup.of_map _ (h sessions hmanifest))

/-- Before the manifest is cleared, none is lost whatever fails. -/
theorem Kept.resumeAll (hk : s.Kept) (hd : s.Distinct) (hmanifest : s.manifest = some sessions) :
    (resumeAll spawns s (sortedSessions sessions)).1.Kept := by
  intro sessionId howed
  rw [Recorded,resumeAll_manifest]
  exact hk sessionId (owed_of_resumeAll (hd.sorted hmanifest) howed)

/-- Once it is cleared, all that were shut down must have come up. -/
theorem Kept.cleared_iff (hk : s.Kept) (hd : s.Distinct)
    (hmanifest : s.manifest = some sessions) :
    Kept { (Sessions.resumeAll spawns s (sortedSessions sessions)).1 with manifest := none } ↔
      ∀ x ∈ sessions, s.Owed x.sessionId → s.phase x.sessionId = .down ∧
        succeeds (spawnAgentProcess x.options (spawns x.sessionId)) = true := by
  have hsorted := hd.sorted hmanifest
  constructor
  · intro h x hx howed
    rw [← not_owed_resumeSession_iff howed]
    intro hstill
    rw [Owed,← resumeAll_phase_of_mem hsorted (sortedSessions_perm.mem_iff.mpr hx)] at hstill
    obtain ⟨_,hnone,_⟩ := h x.sessionId hstill
    cases hnone
  · intro h sessionId howed
    have hbefore : s.Owed sessionId := owed_of_resumeAll hsorted howed
    obtain ⟨_,heq,x,hx,rfl⟩ := hk sessionId hbefore
    cases hmanifest.symm.trans heq
    have hup := (not_owed_resumeSession_iff hbefore).mpr (h x hx hbefore)
    rw [Owed,← resumeAll_phase_of_mem hsorted (sortedSessions_perm.mem_iff.mpr hx)] at hup
    exact absurd howed hup

theorem safe_resume_iff (hk : s.Kept) (hd : s.Distinct) (read : Except String Unit)
    (spawns : String → SpawnOutcome) (deleted : Except String Unit) :
    s.Safe (.resume read spawns deleted) ↔ s.Saves (.resume read spawns deleted) := by
  simp only [Safe,Saves,next,resumeAgents]
  cases hload : s.load read with
  | error e => simpa using hk
  | ok loaded =>
    cases loaded with
    | none => simpa using hk
    | some sessions =>
      have hmanifest := load_eq_some hload
      simp only [Except.ok.injEq,Option.some.injEq,forall_eq']
      rw [hd.parentsFirst_iff hmanifest,and_comm]
      cases deleted with
      | error e =>
        refine and_congr_right (fun _ => iff_of_true (hk.resumeAll hd hmanifest) ?_)
        intro h
        cases h
      | ok =>
        refine and_congr_right (fun _ => ?_)
        rw [hk.cleared_iff hd hmanifest]
        exact ⟨fun h _ => h,fun h => h rfl⟩

theorem owed_detach_iff {hibernated : List String} {sessionId : String}
    {manifest : Option (List HibernatedSession)} :
    Owed ⟨s.detach hibernated,manifest⟩ sessionId ↔
      sessionId ∈ hibernated ∨ s.Owed sessionId := by
  simp only [Owed,detach]
  by_cases h : sessionId ∈ hibernated
  · simp [h]
  · simp [h]

theorem map_recorded (visits : List Visit) :
    (s.recorded visits).map (fun x => x.sessionId) =
      (s.found visits).map (fun v => v.agent.sessionId) := by
  rw [recorded,List.map_map]
  rfl

theorem mem_map_found_iff {visits : List Visit} {sessionId : String} :
    sessionId ∈ (s.found visits).map (fun v => v.agent.sessionId) ↔
      s.isAlive sessionId = true ∧ sessionId ∈ visits.map (fun v => v.agent.sessionId) := by
  constructor
  · intro h
    obtain ⟨v,hv,rfl⟩ := List.mem_map.mp h
    obtain ⟨hv,halive⟩ := List.mem_filter.mp hv
    exact ⟨halive,List.mem_map_of_mem hv⟩
  · rintro ⟨halive,h⟩
    obtain ⟨v,hv,rfl⟩ := List.mem_map.mp h
    exact List.mem_map.mpr ⟨v,List.mem_filter.mpr ⟨hv,halive⟩,rfl⟩

theorem mem_map_found_of_hibernated {visits : List Visit} {sessionId : String}
    (h : sessionId ∈ s.hibernated visits) :
    sessionId ∈ (s.found visits).map (fun v => v.agent.sessionId) :=
  (List.filter_sublist.map _).subset h

theorem Owed.isAlive_iff {sessionId : String} (h : s.Owed sessionId) :
    s.isAlive sessionId = true ↔ s.phase sessionId = .leaving := by
  rcases h with h | h
  · simp [isAlive,h]
  · simp [isAlive,h]

theorem safe_hibernate_iff (hk : s.Kept) (listed : Except String (List Visit))
    (saved : Except String Unit) :
    s.Safe (.hibernate listed saved) ↔ s.Saves (.hibernate listed saved) := by
  simp only [Safe,next,hibernateAgents,and_true]
  cases listed with
  | error e => exact iff_of_true hk trivial
  | ok visits =>
    cases saved with
    | error e =>
      simp only [Saves,Kept,owed_detach_iff]
      exact ⟨fun h sessionId hmem => h sessionId (.inl hmem),
        fun h sessionId howed => howed.elim (h sessionId) (hk sessionId)⟩
    | ok =>
      have hrecorded : ∀ {phase : String → Phase} (sessionId : String),
          Recorded ⟨phase,some (s.recorded visits)⟩ sessionId ↔
            s.isAlive sessionId = true ∧
              sessionId ∈ visits.map (fun v => v.agent.sessionId) := by
        intro phase sessionId
        rw [← mem_map_found_iff,← map_recorded,List.mem_map]
        simp [Recorded]
      simp only [Saves,Kept,owed_detach_iff,hrecorded]
      constructor
      · intro h sessionId howed
        have hfound := h sessionId (.inr howed)
        exact ⟨howed.isAlive_iff.mp hfound.1,hfound.2⟩
      · rintro h sessionId (hmem | howed)
        · exact mem_map_found_iff.mp (mem_map_found_of_hibernated hmem)
        · exact ⟨howed.isAlive_iff.mpr (h sessionId howed).1,(h sessionId howed).2⟩

theorem owed_setPhase_of_ne {sessionId other : String} {phase : Phase} (h : other ≠ sessionId) :
    (s.setPhase sessionId phase).Owed other ↔ s.Owed other := by
  simp only [Owed,setPhase,Function.update_of_ne h]

/-- A session that starts is no longer owed. -/
theorem Kept.setPhase_up (hk : s.Kept) (sessionId : String) : (s.setPhase sessionId .up).Kept := by
  intro other howed
  by_cases h : other = sessionId
  · subst h
    simp [Owed,setPhase] at howed
  · exact hk other ((owed_setPhase_of_ne h).mp howed)

theorem Kept.exits (hk : s.Kept) (sessionId : String) : (s.next (.exits sessionId)).Kept := by
  intro other howed
  by_cases h : other = sessionId
  · subst h
    by_cases hleaving : s.phase other = .leaving
    · exact hk other (.inl hleaving)
    · simp [Owed,next,setPhase,hleaving] at howed
  · exact hk other ((owed_setPhase_of_ne h).mp howed)

/-- What one step does to the sessions that have been shut down, and in which order a resume
goes, shows in its event and the state it meets. -/
theorem safe_iff (hk : s.Kept) (hd : s.Distinct) (e : HibernateEvent) : s.Safe e ↔ s.Saves e := by
  cases e with
  | starts sessionId => exact iff_of_true ⟨hk.setPhase_up sessionId,trivial⟩ trivial
  | exits sessionId => exact iff_of_true ⟨hk.exits sessionId,trivial⟩ trivial
  | recalled sessionId => exact iff_of_true ⟨hk.setPhase_up sessionId,trivial⟩ trivial
  | hibernate listed saved => exact safe_hibernate_iff hk listed saved
  | resume read spawns deleted => exact safe_resume_iff hk hd read spawns deleted

theorem Distinct.next {e : HibernateEvent} (hd : s.Distinct) (he : s.Enabled e) :
    (s.next e).Distinct := by
  cases e with
  | starts sessionId => exact hd
  | exits sessionId => exact hd
  | recalled sessionId => exact hd
  | hibernate listed saved =>
    cases listed with
    | error e => exact hd
    | ok visits =>
      cases saved with
      | error e => exact hd
      | ok =>
        rintro _ ⟨⟩
        rw [map_recorded]
        exact List.Nodup.sublist (List.filter_sublist.map _) he
  | resume read spawns deleted =>
    rw [Distinct,Sessions.next,resumeAgents]
    split
    · exact hd
    · exact hd
    · cases deleted with
      | error e =>
        simp only [resumeAll_manifest]
        exact hd
      | ok =>
        rintro _ ⟨⟩

end Sessions

/-- Over a run no session is lost, and every resume comes to parents first, exactly when every
step is one that saves. -/
theorem run_safe_iff {es : List HibernateEvent} (hr : hibernation.Run {} es) :
    (∀ p ∈ hibernation.trail {} es, p.1.Safe p.2) ↔
      ∀ p ∈ hibernation.trail {} es, p.1.Saves p.2 := by
  refine hr.forall_iff (G := fun s => s.Kept ∧ s.Distinct) (P := Sessions.Safe)
    (C := Sessions.Saves) ?_ ?_ ?_
  · intro s e h he hc
    exact ⟨((Sessions.safe_iff h.1 h.2 e).mpr hc).1,h.2.next he⟩
  · intro s e h _
    exact Sessions.safe_iff h.1 h.2 e
  · constructor
    · rintro sessionId (h | h) <;> cases h
    · rintro sessions ⟨⟩

def parent : AgentMetadata := ⟨"parent","gemma4",".",none,none,false⟩

def child : AgentMetadata := ⟨"child","gemma4",".",some "parent",none,true⟩

/-- The agents have exited when they are resumed, and all come up. -/
def restartedRun : List HibernateEvent :=
  [.starts "parent",.starts "child",
    .hibernate (.ok [⟨child,.detached⟩,⟨parent,.detached⟩]) (.ok ()),
    .exits "parent",.exits "child",
    .resume (.ok ()) (fun _ => ⟨.ok 0,.ok "agent.sock"⟩) (.ok ())]

theorem restartedRun_safe : hibernation.Run {} restartedRun ∧
    ∀ p ∈ hibernation.trail {} restartedRun, p.1.Safe p.2 := by
  have hrun : hibernation.Run {} restartedRun :=
    ⟨rfl,rfl,by simp [hibernation,Sessions.Enabled,parent,child],rfl,rfl,trivial,trivial⟩
  refine ⟨hrun,(run_safe_iff hrun).mpr ?_⟩
  simp only [restartedRun,Machine.forall_trail_cons]
  refine ⟨?_,?_,?_,?_,?_,?_,Machine.forall_trail_nil⟩
  · trivial
  · trivial
  · intro sessionId howed
    simp only [Sessions.Owed,hibernation,Sessions.next,Sessions.setPhase,
      Function.update_apply] at howed
    split_ifs at howed <;> simp at howed
  · trivial
  · trivial
  · rintro sessions hload
    cases Sessions.load_eq_some hload
    refine ⟨?_,fun _ x hx _ => ?_⟩
    · rintro a b ⟨ha,hb,hparent⟩ hchild
      replace ha : a ∈ [child.hibernated,parent.hibernated] := ha
      replace hb : b ∈ [child.hibernated,parent.hibernated] := hb
      rw [List.mem_pair] at ha hb
      rcases ha with rfl | rfl
      · rcases hb with rfl | rfl
        · simp [child,AgentMetadata.hibernated] at hparent
        · cases hparent
      · cases hchild
    · replace hx : x ∈ [child.hibernated,parent.hibernated] := hx
      rw [List.mem_pair] at hx
      rcases hx with rfl | rfl
      · decide
      · decide

/-- An agent cannot be spawned, and the manifest is cleared all the same. -/
def clearedManifestRun : List HibernateEvent :=
  [.starts "parent",.hibernate (.ok [⟨parent,.detached⟩]) (.ok ()),.exits "parent",
    .resume (.ok ()) (fun _ => ⟨.ok 0,.error "timed out"⟩) (.ok ())]

theorem clearedManifestRun_not_safe :
    ¬ ∀ es, hibernation.Run {} es → ∀ p ∈ hibernation.trail {} es, p.1.Safe p.2 := by
  intro h
  have hrun : hibernation.Run {} clearedManifestRun :=
    ⟨rfl,List.nodup_singleton _,rfl,trivial,trivial⟩
  have hkept := (h clearedManifestRun hrun _ (.tail _ (.tail _ (.tail _ (.head _))))).1
  have hload : (hibernation.exec {} (clearedManifestRun.take 3)).load (.ok ()) =
      .ok (some [parent.hibernated]) := rfl
  have hsorted : sortedSessions [parent.hibernated] = [parent.hibernated] :=
    List.mergeSort_singleton ..
  have hnext := Sessions.next_resume hload (fun _ => ⟨.ok 0,.error "timed out"⟩)
  rw [hsorted] at hnext
  have hdown : (hibernation.exec {} clearedManifestRun).phase "parent" = .down := by
    refine (congrArg (fun s => Sessions.phase s "parent") hnext).trans ?_
    decide
  obtain ⟨_,hnone,_⟩ := hkept "parent" (.inr hdown)
  cases hnone

end Rullama.Agent
