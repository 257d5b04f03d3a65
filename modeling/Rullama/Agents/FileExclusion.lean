import Rullama.Agents.Session
import Rullama.Agents.ToolUses

/-! # Exclusion on files

Agents that change one file do not run at once with others that read or change it, as long as their
tool calls take the same lock.
-/
namespace Rullama.Agents
open Tools (ToolUse ToolResult LockType getLockRequirement lockType lockPath)
open Transition.Machine (mem_of_mem_trail)

/-! ## Conflicts -/

def changingTools : List String := ["write_file","edit_file","append_to_file","delete_file"]

/-- The tools that the lock protocol is for. -/
def fileTools : List String :=
  changingTools ++ ["patch_file","create_directory","read_file","list_directory","search_code"]

section Conflicts

variable {F : Type*} (target : ToolUse → Option F)

/-- One changes a file that the other reads or changes. `target` is the file that a tool works on;
the tools and the file system are outside the repository. -/
def Conflict (t u : ToolUse) : Prop :=
  t.name ∈ changingTools ∧ u.name ∈ fileTools ∧ ∃ f, target t = some f ∧ target u = some f

/-- Both take a lock on the same path string. -/
def SameLock (t u : ToolUse) : Prop :=
  ∃ path ty ty', getLockRequirement t = some (path,ty) ∧ getLockRequirement u = some (path,ty')

variable {ι : Type*}

/-- While an agent executes a tool that changes a file, no other executes one that reads or changes
it. -/
def Exclusive (s : Session ι) : Prop :=
  ∀ i j, i ≠ j → ∀ t u rest rest', (s.agents i).phase = .executing t rest →
    (s.agents j).phase = .executing u rest' → ¬ Conflict target t u

/-- A tool use of a response that the agent got in the run. -/
def Issued (es : List (ι × Event)) (i : ι) (t : ToolUse) : Prop :=
  ∃ r, (i,.respond (.ok r)) ∈ es ∧ t ∈ toolUses r.message

end Conflicts

/-- Of two tool uses with a common lock, the one that changes a file takes it for writing. -/
theorem SameLock.write {t u : ToolUse} (h : SameLock t u) (ht : t.name ∈ changingTools) :
    ∃ path ty', getLockRequirement t = some (path,.write) ∧
      getLockRequirement u = some (path,ty') := by
  obtain ⟨path,ty,ty',hlock,hlock'⟩ := h
  have hwrite : ∀ n ∈ changingTools, ∀ ty ∈ lockType n, ty = .write := by decide
  have hty : ty ∈ lockType t.name := by
    rw [getLockRequirement] at hlock
    obtain ⟨p,-,hp⟩ := Option.bind_eq_some_iff.mp hlock
    obtain ⟨ty₀,hty₀,hpair⟩ := Option.map_eq_some_iff.mp hp
    cases hpair
    exact hty₀
  rw [hwrite t.name ht ty hty] at hlock
  exact ⟨path,ty',hlock,hlock'⟩

/-! ## One agent -/

/-- The tool uses of the last response that are not done. -/
def Phase.uses : Phase → List ToolUse
  | .tools pending => pending
  | .locking t _ _ pending => t :: pending
  | .executing t pending => t :: pending
  | _ => []

def Phase.executes : Phase → Bool
  | .executing _ _ => true
  | _ => false

/-- An agent that executes a tool holds the lock that the tool requires, and none otherwise. -/
structure Guarded (issued : ToolUse → Prop) (a : TaskAgent) : Prop where
  uses : ∀ t ∈ a.phase.uses, issued t
  response : ∀ r, a.phase.response = some r → ∀ t ∈ toolUses r.message, issued t
  locking : ∀ t path ty rest, a.phase = .locking t path ty rest →
    getLockRequirement t = some (path,ty)
  executing : ∀ t rest, a.phase = .executing t rest → a.lock = getLockRequirement t
  free : (∀ t rest, a.phase ≠ .executing t rest) → a.lock = none

structure Unlocked (issued : ToolUse → Prop) (a : TaskAgent) : Prop extends Guarded issued a where
  lock : a.lock = none

variable {issued : ToolUse → Prop} {a : TaskAgent}

/-- Outside of the tools there is nothing to guard. -/
theorem unlocked_free (hlock : a.lock = none) (huses : a.phase.uses = [])
    (hresponse : ∀ r, a.phase.response = some r → ∀ t ∈ toolUses r.message, issued t) :
    Unlocked issued a := by
  refine ⟨⟨fun t ht => ?_,hresponse,fun t path ty rest h => ?_,fun t rest h => ?_,
    fun _ => hlock⟩,hlock⟩
  · rw [huses] at ht
    cases ht
  · rw [h] at huses
    cases huses
  · rw [h] at huses
    cases huses

theorem unlocked_quiet (hlock : a.lock = none) (huses : a.phase.uses = [])
    (hresponse : a.phase.response = none) : Unlocked issued a := by
  refine unlocked_free hlock huses (fun r hr => ?_)
  rw [hresponse] at hr
  cases hr

theorem unlocked_tools (hlock : a.lock = none) {pending : List ToolUse}
    (ha : a.phase = .tools pending) (hpending : ∀ t ∈ pending, issued t) : Unlocked issued a := by
  refine ⟨⟨fun t ht => ?_,fun r hr => ?_,fun t path ty rest h => ?_,fun t rest h => ?_,
    fun _ => hlock⟩,hlock⟩
  · rw [ha] at ht
    exact hpending t ht
  · rw [ha] at hr
    cases hr
  · rw [ha] at h
    cases h
  · rw [ha] at h
    cases h

theorem unlocked_process (hlock : a.lock = none) {response : ChatResponse}
    (h : ∀ t ∈ toolUses response.message, issued t) : Unlocked issued (a.process response) := by
  simp only [TaskAgent.process]
  split
  · exact unlocked_quiet hlock rfl rfl
  · exact unlocked_tools hlock rfl h

theorem unlocked_iterate (hlock : a.lock = none) (elapsedSecs : ℕ)
    (helpResponse : Option (String × String)) :
    Unlocked issued (a.iterate elapsedSecs helpResponse) := by
  simp only [TaskAgent.iterate]
  split
  · exact unlocked_quiet rfl rfl rfl
  · split
    · exact unlocked_quiet rfl rfl rfl
    · cases helpResponse with
      | none => exact unlocked_quiet hlock rfl rfl
      | some p => exact unlocked_quiet hlock rfl rfl

theorem unlocked_respond (hlock : a.lock = none) {response : Except String ChatResponse}
    (h : ∀ r, response = .ok r → ∀ t ∈ toolUses r.message, issued t) :
    Unlocked issued (a.respond response) := by
  cases response with
  | error e => exact unlocked_quiet rfl rfl rfl
  | ok r =>
    simp only [TaskAgent.respond]
    split
    · exact unlocked_quiet rfl rfl rfl
    · split
      · refine unlocked_free hlock rfl (fun r' hr' => ?_)
        cases hr'
        exact h r rfl
      · exact unlocked_process (by exact hlock) (h r rfl)

theorem unlocked_nextTool (hlock : a.lock = none) {pending : List ToolUse}
    (h : ∀ t ∈ pending, issued t) : Unlocked issued (a.nextTool pending) := by
  cases pending with
  | nil => exact unlocked_quiet hlock rfl rfl
  | cons t pending =>
    simp only [TaskAgent.nextTool]
    split
    · exact unlocked_tools hlock rfl (fun u hu => h u (List.mem_cons_of_mem t hu))
    · split
      · rename_i path ty hreq
        refine ⟨⟨h,fun r hr => ?_,fun u path' ty' rest hphase => ?_,fun u rest hphase => ?_,
          fun _ => hlock⟩,hlock⟩
        · cases hr
        · cases hphase
          exact hreq
        · cases hphase
      · rename_i hreq
        refine ⟨⟨h,fun r hr => ?_,fun u path ty rest hphase => ?_,fun u rest hphase => ?_,
          fun hnot => absurd rfl (hnot t pending)⟩,hlock⟩
        · cases hr
        · cases hphase
        · cases hphase
          exact hlock.trans hreq.symm

/-- With the lock, the tool is executed. -/
theorem guarded_locked {t : ToolUse} {path : String} {ty : LockType} {pending : List ToolUse}
    (hreq : getLockRequirement t = some (path,ty)) (h : ∀ u ∈ t :: pending, issued u) (u : Unit) :
    Guarded issued (a.locked t path ty pending (.ok u)) := by
  refine ⟨h,fun r hr => ?_,fun u path ty rest hphase => ?_,fun u rest hphase => ?_,
    fun hnot => absurd rfl (hnot t pending)⟩
  · cases hr
  · cases hphase
  · cases hphase
    exact hreq.symm

theorem unlocked_toolDone {t : ToolUse} {pending : List ToolUse}
    (h : ∀ u ∈ t :: pending, issued u) (outcome : Except String ToolResult) (persisted : Bool) :
    Unlocked issued (a.toolDone t pending outcome persisted) := by
  cases outcome with
  | error e => exact unlocked_quiet rfl rfl rfl
  | ok r => exact unlocked_tools rfl rfl (fun u hu => h u (List.mem_cons_of_mem t hu))

theorem unlocked_start (hlock : a.lock = none) (registers : Except String Unit)
    (checkpoint : Option (List String)) : Unlocked issued (a.start registers checkpoint) := by
  unfold TaskAgent.start
  split
  · exact unlocked_quiet rfl rfl rfl
  · exact unlocked_quiet hlock rfl rfl

theorem unlocked_validate (hlock : a.lock = none) (messageText : String)
    (feedback : Option String) : Unlocked issued (a.validate messageText feedback) := by
  cases feedback with
  | none => exact unlocked_quiet rfl rfl rfl
  | some text =>
    simp only [TaskAgent.validate]
    split
    · exact unlocked_quiet hlock rfl rfl
    · exact unlocked_quiet rfl rfl rfl

theorem Guarded.lock_eq_none (h : Guarded issued a) {phase : Phase} (ha : a.phase = phase)
    (hphase : phase.executes = false) : a.lock = none := by
  refine h.free (fun t rest hexecuting => ?_)
  rw [← ha,hexecuting] at hphase
  cases hphase

/-- A lock is only gained where the manager gives it out. -/
theorem Guarded.next (h : Guarded issued a) {e : Event} (he : machine.enabled a e)
    (hissued : ∀ r, e = .respond (.ok r) → ∀ t ∈ toolUses r.message, issued t) :
    Unlocked issued (machine.next a e) ∨ Guarded issued (machine.next a e) ∧
      ∃ t path ty rest u, e = .lock (.ok u) ∧ a.phase = .locking t path ty rest ∧
        (machine.next a e).lock = some (path,ty) := by
  have hstep := step_of_enabled he
  generalize machine.next a e = b at hstep ⊢
  cases hstep with
  | start registers checkpoint ha =>
    exact .inl (unlocked_start (h.lock_eq_none ha rfl) registers checkpoint)
  | iterate elapsedSecs helpResponse ha =>
    exact .inl (unlocked_iterate (h.lock_eq_none ha rfl) elapsedSecs helpResponse)
  | respond response ha =>
    refine .inl (unlocked_respond (h.lock_eq_none ha rfl) (fun r hr => ?_))
    exact hissued r (by rw [hr])
  | record response ha =>
    refine .inl (unlocked_free (h.lock_eq_none ha rfl) rfl ?_)
    rintro r ⟨⟩
    exact h.response _ (by rw [ha]; rfl)
  | check response error ha =>
    cases error with
    | none =>
      exact .inl (unlocked_process (h.lock_eq_none ha rfl)
        (h.response _ (by rw [ha]; rfl)))
    | some e => exact .inl (unlocked_quiet rfl rfl rfl)
  | validate messageText feedback ha =>
    exact .inl (unlocked_validate (h.lock_eq_none ha rfl) messageText feedback)
  | nextTool pending ha =>
    have huses := h.uses
    rw [ha] at huses
    exact .inl (unlocked_nextTool (h.lock_eq_none ha rfl) huses)
  | lock t path lockType pending outcome ha =>
    have huses := h.uses
    rw [ha] at huses
    cases outcome with
    | ok u =>
      exact .inr ⟨guarded_locked (h.locking _ _ _ _ ha) huses u,_,_,_,_,u,rfl,ha,rfl⟩
    | error e =>
      exact .inl (unlocked_tools (h.lock_eq_none ha rfl) rfl
        (fun u hu => huses u (List.mem_cons_of_mem _ hu)))
  | toolDone t pending outcome persisted ha =>
    have huses := h.uses
    rw [ha] at huses
    exact .inl (unlocked_toolDone huses outcome persisted)

/-! ## The session -/

section Session

variable {ι : Type*} {F : Type*} {target : ToolUse → Option F} {s : Session ι}

structure Locked (issued : ι → ToolUse → Prop) (s : Session ι) : Prop where
  guarded : ∀ i, Guarded (issued i) (s.agents i)
  compatible : ∀ i j, i ≠ j → Compatible (s.agents i).lock (s.agents j).lock

theorem Compatible.symm {l l' : Option (String × LockType)} (h : Compatible l l') :
    Compatible l' l := by
  cases l with
  | none => cases l' <;> trivial
  | some p =>
    cases l' with
    | none => trivial
    | some p' => exact fun heq => (h heq.symm).symm

theorem locked_of_fresh {issued : ι → ToolUse → Prop} (h : s.Fresh) : Locked issued s := by
  refine ⟨fun i => (unlocked_free (h i).2.1 (by rw [(h i).1]; rfl) (fun r hr => ?_)).toGuarded,
    fun i j _ => ?_⟩
  · rw [(h i).1] at hr
    cases hr
  · rw [(h i).2.1]
    trivial

variable [DecidableEq ι]

theorem Locked.next {issued : ι → ToolUse → Prop} (h : Locked issued s) {e : ι × Event}
    (he : sessions.enabled s e)
    (hissued : ∀ r, e.2 = .respond (.ok r) → ∀ t ∈ toolUses r.message, issued e.1 t) :
    Locked issued (sessions.next s e) := by
  have hstep := (h.guarded e.1).next he.1 hissued
  have hguarded : Guarded (issued e.1) (machine.next (s.agents e.1) e.2) := by
    rcases hstep with hfree | ⟨hg,-⟩
    · exact hfree.toGuarded
    · exact hg
  -- the lock that the agent holds after the step suits all others
  have hcompatible : ∀ j, j ≠ e.1 →
      Compatible (machine.next (s.agents e.1) e.2).lock (s.agents j).lock := by
    intro j hj
    rcases hstep with hfree | ⟨-,t,path,ty,rest,u,hevent,hphase,hlock⟩
    · rw [hfree.lock]
      trivial
    · have hanswer := he.2
      rw [hevent,Session.answers,hphase] at hanswer
      rw [hlock]
      exact hanswer j hj
  refine ⟨fun i => ?_,fun i j hij => ?_⟩
  · by_cases hi : i = e.1
    · rw [hi,agents_next_self]
      exact hguarded
    · rw [agents_next_of_ne hi]
      exact h.guarded i
  · by_cases hi : i = e.1
    · have hj : j ≠ e.1 := fun hj => hij (hi.trans hj.symm)
      rw [hi,agents_next_self,agents_next_of_ne hj]
      exact hcompatible j hj
    · rw [agents_next_of_ne hi]
      by_cases hj : j = e.1
      · rw [hj,agents_next_self]
        exact (hcompatible i hi).symm
      · rw [agents_next_of_ne hj]
        exact h.compatible i j hij

/-- In every run of a session in which conflicting tool calls of two agents take the same lock, an
agent that changes a file has it for itself. -/
theorem exclusive_of_sameLock (hs : s.Fresh) {es : List (ι × Event)} (hr : sessions.Run s es)
    (hlock : ∀ i j, i ≠ j → ∀ t u, Issued es i t → Issued es j u → Conflict target t u →
      SameLock t u) : Exclusive target (sessions.exec s es) := by
  have hinv : Locked (Issued es) (sessions.exec s es) := by
    refine hr.invariant_of (I := Locked (Issued es))
      (C := fun _ e => ∀ r, e.2 = .respond (.ok r) → ∀ t ∈ toolUses r.message, Issued es e.1 t)
      (fun s e h he hc => h.next he hc) (locked_of_fresh hs) (fun p hp r hevent t ht => ?_)
    have hmem : p.2 ∈ es := mem_of_mem_trail hp
    exact ⟨r,by rw [← hevent]; exact hmem,ht⟩
  intro i j hij t u rest rest' hi hj hconflict
  have hgi := hinv.guarded i
  have hgj := hinv.guarded j
  have hti : Issued es i t := hgi.uses t (by rw [hi]; exact List.mem_cons_self)
  have huj : Issued es j u := hgj.uses u (by rw [hj]; exact List.mem_cons_self)
  obtain ⟨path,ty',hwrite,hother⟩ := (hlock i j hij t u hti huj hconflict).write hconflict.1
  have hcompatible := hinv.compatible i j hij
  rw [hgi.executing t rest hi,hgj.executing u rest' hj,hwrite,hother] at hcompatible
  cases (hcompatible rfl).1

end Session

def pair : Session Bool :=
  { agents := fun b =>
      { id := if b then "agent-2" else "agent-1",task := ⟨"task","Keep the notes.",0⟩,config := {} }
    budget := {} }

def writeNotes (path : String) : ToolUse :=
  ⟨"call_0","write_file",.object [("path",.string path)]⟩

def readNotes (path : String) : ToolUse :=
  ⟨"call_0","read_file",.object [("path",.string path)]⟩

/-- Up to the request for the lock. -/
def callOf (b : Bool) (t : ToolUse) : List (Bool × Event) :=
  [(b,.start (.ok ()) none),(b,.iterate 0 none),
    (b,.respond (.ok { message := ⟨.assistant,.blocks [.toolUse t]⟩ })),(b,.nextTool)]

/-- The reader waits for the lock of the writer. -/
def waitingRun : List (Bool × Event) :=
  callOf false (writeNotes "notes.txt") ++ [(false,.lock (.ok ()))] ++
    callOf true (readNotes "notes.txt")

theorem waitingRun_exclusive :
    Exclusive (fun t => lockPath t.input) (sessions.exec pair waitingRun) := by
  have hrun : sessions.Run pair waitingRun := by
    refine ⟨⟨rfl,trivial⟩,⟨rfl,trivial⟩,⟨rfl,trivial⟩,⟨rfl,trivial⟩,⟨rfl,fun j hj => ?_⟩,
      ⟨rfl,trivial⟩,⟨rfl,trivial⟩,⟨rfl,trivial⟩,⟨rfl,trivial⟩,trivial⟩
    cases j with
    | false => exact absurd rfl hj
    | true => trivial
  have huses : ∀ b t, Issued waitingRun b t → ∃ ty, getLockRequirement t = some ("notes.txt",ty) := by
    rintro b t ⟨r,hr,ht⟩
    simp only [waitingRun,callOf,List.cons_append,List.nil_append,List.mem_cons,Prod.mk.injEq,
      reduceCtorEq,and_false,false_or,Event.respond.injEq,Except.ok.injEq,or_false,
      List.not_mem_nil] at hr
    rcases hr with ⟨-,rfl⟩ | ⟨-,rfl⟩
    · cases List.mem_singleton.mp ht
      exact ⟨.write,rfl⟩
    · cases List.mem_singleton.mp ht
      exact ⟨.read,rfl⟩
  refine exclusive_of_sameLock (fun _ => ⟨rfl,rfl,rfl⟩) hrun (fun i j _ t u ht hu _ => ?_)
  obtain ⟨ty,hty⟩ := huses i t ht
  obtain ⟨ty',hty'⟩ := huses j u hu
  exact ⟨"notes.txt",ty,ty',hty,hty'⟩

/-- A leading `./` does not change the file. -/
def withoutDot (path : String) : List Char :=
  match path.toList with
  | '.' :: '/' :: rest => rest
  | cs => cs

/-- The two spellings have locks of their own. -/
def spelledRun : List (Bool × Event) :=
  callOf false (writeNotes "./notes.txt") ++ [(false,.lock (.ok ()))] ++
    callOf true (readNotes "notes.txt") ++ [(true,.lock (.ok ()))]

theorem spelledRun_not_exclusive : pair.Fresh ∧ sessions.Run pair spelledRun ∧
    ¬ Exclusive (fun t => (lockPath t.input).map withoutDot) (sessions.exec pair spelledRun) := by
  refine ⟨fun _ => ⟨rfl,rfl,rfl⟩,⟨⟨rfl,trivial⟩,⟨rfl,trivial⟩,⟨rfl,trivial⟩,⟨rfl,trivial⟩,⟨rfl,?_⟩,
    ⟨rfl,trivial⟩,⟨rfl,trivial⟩,⟨rfl,trivial⟩,⟨rfl,trivial⟩,⟨rfl,?_⟩,trivial⟩,fun h => ?_⟩
  · intro j hj
    cases j with
    | false => exact absurd rfl hj
    | true => trivial
  · intro j hj
    cases j with
    | false => exact fun hpath => absurd hpath (by decide)
    | true => exact absurd rfl hj
  · refine h false true (by decide) (writeNotes "./notes.txt") (readNotes "notes.txt") [] [] rfl rfl
      ⟨by decide,by decide,"notes.txt".toList,?_,?_⟩
    · decide +kernel
    · decide +kernel

end Rullama.Agents
