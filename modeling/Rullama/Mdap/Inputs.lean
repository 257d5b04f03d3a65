import Rullama.Tools.Json
import Rullama.Transition.Machine

/-! # Inputs of the subtasks

Two executors work off the subtasks of a decomposition in the order the topological sort gives
them, each with a gathering of dependency outputs of its own: the orchestrator assigns them by
index under the id of the dependency, the executor of the `mdap` module inserts them under
`dep_` and the id.
-/
namespace Rullama.Mdap
open Rullama.Tools Rullama.Transition

structure Subtask where
  id : String
  inputState : Value
  dependsOn : List String

/-- The values of the outputs by subtask, the last one first. -/
abbrev Results := List (String × Value)

abbrev Fields := List (String × Value)

/-- `Map::insert` -/
def insertField : Fields → String → Value → Fields
  | [], key, v => [(key,v)]
  | f :: fields, key, v => if f.1 = key then (key,v) :: fields else f :: insertField fields key v

/-- `input[key] = v`: null becomes an object, and what is neither that nor an object panics. -/
def indexAssign (input : Value) (key : String) (v : Value) : Option Value :=
  match input with
  | .null => some (.object [(key,v)])
  | .object fields => some (.object (insertField fields key v))
  | _ => none

/-- Equality of JSON values, where objects are maps. -/
def Same : Value → Value → Prop
  | .object fields, .object fields' => ∀ key, fields.lookup key = fields'.lookup key
  | v, w => v = w

namespace Subtask
variable (s : Subtask) (results : Results)

/-- The input that `execute_with_mdap` gathers; none where it panics. -/
def orchestratorInput : Option Value :=
  s.dependsOn.foldlM (fun input depId =>
    match results.lookup depId with
    | some depResult => indexAssign input depId depResult
    | none => some input) s.inputState

def gatherInputs : Value :=
  let input := match s.inputState with
    | .null => Value.object []
    | input => input
  match input with
  | .object obj =>
    .object (s.dependsOn.foldl (fun obj depId =>
      match results.lookup depId with
      | some depResult => insertField obj ("dep_" ++ depId) depResult
      | none => obj) obj)
  | input => input

/-- The dependencies that have an output, each with it. -/
def completed : List (String × Value) :=
  s.dependsOn.filterMap (fun depId => (results.lookup depId).map (depId,·))

/-- `v` is the input state with the outputs of the completed dependencies, and nothing else, under
their keys. -/
structure Extends (key : String → String) (v : Value) : Prop where
  outputs : ∀ p ∈ s.completed results, v.get (key p.1) = some p.2
  rest : ∀ k, (∀ p ∈ s.completed results, key p.1 ≠ k) → v.get k = s.inputState.get k
  state : s.completed results = [] → v = s.inputState

/-- What is under `k` once the outputs are in the object under their keys. -/
def placed (fields : Fields) (key : String → String) (k : String) : Option Value :=
  (((s.completed results).find? (fun p => key p.1 = k)).map (·.2)).or (fields.lookup k)

def Takes : Prop :=
  s.completed results = [] ∨ s.inputState = .null ∨ ∃ fields, s.inputState = .object fields

/-- The input state is not null and there is nothing to add to it, or it is an object in which each
output to add is found under the key that the other executor has for it. -/
def Foreseen : Prop :=
  (s.completed results = [] ∧ s.inputState ≠ .null) ∨
    ∃ fields, s.inputState = .object fields ∧ ∀ p ∈ s.completed results,
      s.placed results fields ("dep_" ++ ·) p.1 = some p.2 ∧
        s.placed results fields (·) ("dep_" ++ p.1) = some p.2

end Subtask

/-! ## Maps -/

theorem lookup_insertField (fields : Fields) (key k : String) (v : Value) :
    (insertField fields key v).lookup k = if k = key then some v else fields.lookup k := by
  induction fields with
  | nil =>
    rw [insertField,List.lookup_cons,List.lookup_nil]
    by_cases h : k = key
    · rw [if_pos h,h,beq_self_eq_true]
    · rw [if_neg h,beq_false_of_ne h]
  | cons f fields ih =>
    rw [insertField]
    by_cases hf : f.1 = key
    · rw [if_pos hf,List.lookup_cons,List.lookup_cons,hf]
      by_cases h : k = key
      · rw [if_pos h,h,beq_self_eq_true]
      · rw [if_neg h,beq_false_of_ne h]
    · rw [if_neg hf,List.lookup_cons,List.lookup_cons,ih]
      by_cases h : k = key
      · rw [if_pos h,if_pos h,h,beq_false_of_ne (Ne.symm hf)]
      · rw [if_neg h,if_neg h]

/-- The outputs inserted under their keys. -/
def overlay (key : String → String) (fields : Fields) (outs : List (String × Value)) : Fields :=
  outs.foldl (fun fields p => insertField fields (key p.1) p.2) fields

variable {key : String → String} {fields : Fields} {outs : List (String × Value)} {k : String}

theorem lookup_overlay_of_notMem (h : ∀ p ∈ outs, key p.1 ≠ k) :
    (overlay key fields outs).lookup k = fields.lookup k := by
  induction outs generalizing fields with
  | nil => rfl
  | cons p outs ih =>
    obtain ⟨hp,h⟩ := List.forall_mem_cons.mp h
    rw [overlay,List.foldl_cons,← overlay,ih h,lookup_insertField,if_neg (Ne.symm hp)]

/-- What is under a key that one value is inserted under, or that has this value already. -/
theorem lookup_overlay {v : Value} (hv : ∀ p ∈ outs, key p.1 = k → p.2 = v)
    (h : fields.lookup k = some v ∨ ∃ p ∈ outs, key p.1 = k) :
    (overlay key fields outs).lookup k = some v := by
  induction outs generalizing fields with
  | nil =>
    rcases h with h | ⟨p,hp,_⟩
    · exact h
    · cases hp
  | cons p outs ih =>
    obtain ⟨hp,hv⟩ := List.forall_mem_cons.mp hv
    rw [overlay,List.foldl_cons,← overlay]
    refine ih hv ?_
    rw [lookup_insertField]
    by_cases hkey : k = key p.1
    · rw [if_pos hkey,hp hkey.symm]
      exact .inl rfl
    · rw [if_neg hkey]
      rcases h with h | ⟨q,hq,heq⟩
      · exact .inl h
      · rcases List.mem_cons.mp hq with rfl | hq
        · exact absurd heq.symm hkey
        · exact .inr ⟨q,hq,heq⟩

namespace Subtask
variable {s : Subtask} {results : Results}

theorem lookup_of_completed {p : String × Value} (hp : p ∈ s.completed results) :
    results.lookup p.1 = some p.2 := by
  obtain ⟨d,_,hd⟩ := List.mem_filterMap.mp hp
  obtain ⟨v,hv,rfl⟩ := Option.map_eq_some_iff.mp hd
  exact hv

/-- One dependency has one output. -/
theorem completed_unique {p q : String × Value} (hp : p ∈ s.completed results)
    (hq : q ∈ s.completed results) (h : p.1 = q.1) : p.2 = q.2 := by
  have hp' := lookup_of_completed hp
  rw [h,lookup_of_completed hq] at hp'
  exact (Option.some.inj hp').symm

theorem lookup_overlay_completed (hkey : key.Injective) :
    (overlay key fields (s.completed results)).lookup k = s.placed results fields key k := by
  rw [placed]
  cases hfind : (s.completed results).find? (fun p => key p.1 = k) with
  | none =>
    have hno : ∀ p ∈ s.completed results, key p.1 ≠ k := by simpa using hfind
    rw [lookup_overlay_of_notMem hno,Option.map_none,Option.none_or]
  | some q =>
    have hq := List.mem_of_find?_eq_some hfind
    have hqk : key q.1 = k := by simpa using List.find?_some hfind
    rw [Option.map_some,Option.some_or]
    refine lookup_overlay ?_ (.inr ⟨q,hq,hqk⟩)
    intro p hp hpk
    exact completed_unique hp hq (hkey (hpk.trans hqk.symm))

theorem placed_of_mem (hkey : key.Injective) {p : String × Value} (hp : p ∈ s.completed results) :
    s.placed results fields key (key p.1) = some p.2 := by
  rw [← lookup_overlay_completed hkey]
  refine lookup_overlay ?_ (.inr ⟨p,hp,rfl⟩)
  intro q hq hqk
  exact completed_unique hq hp (hkey hqk)

theorem placed_of_notMem (h : ∀ p ∈ s.completed results, key p.1 ≠ k) :
    s.placed results fields key k = fields.lookup k := by
  have hfind : (s.completed results).find? (fun p => key p.1 = k) = none := by simpa using h
  rw [placed,hfind,Option.map_none,Option.none_or]

/-! ## What the executors gather -/

theorem foldlM_assign (input : Value) (deps : List String) :
    deps.foldlM (fun input depId =>
        match results.lookup depId with
        | some depResult => indexAssign input depId depResult
        | none => some input) input =
      (deps.filterMap (fun depId => (results.lookup depId).map (depId,·))).foldlM
        (fun input p => indexAssign input p.1 p.2) input := by
  induction deps generalizing input with
  | nil => rfl
  | cons d deps ih =>
    rw [List.foldlM_cons,List.filterMap_cons]
    cases hd : results.lookup d with
    | none =>
      simp only [Option.map_none,Option.bind_eq_bind,Option.bind_some]
      exact ih input
    | some v =>
      simp only [Option.map_some,List.foldlM_cons]
      cases hv : indexAssign input d v with
      | none => rfl
      | some input' => exact ih input'

theorem foldl_insert (fields : Fields) (deps : List String) :
    deps.foldl (fun obj depId =>
        match results.lookup depId with
        | some depResult => insertField obj ("dep_" ++ depId) depResult
        | none => obj) fields =
      overlay ("dep_" ++ ·) fields
        (deps.filterMap (fun depId => (results.lookup depId).map (depId,·))) := by
  induction deps generalizing fields with
  | nil => rfl
  | cons d deps ih =>
    rw [List.foldl_cons,List.filterMap_cons]
    cases hd : results.lookup d with
    | none => exact ih fields
    | some v => exact ih (insertField fields ("dep_" ++ d) v)

theorem foldlM_object (fields : Fields) (outs : List (String × Value)) :
    outs.foldlM (fun input p => indexAssign input p.1 p.2) (.object fields) =
      some (.object (overlay (·) fields outs)) := by
  induction outs generalizing fields with
  | nil => rfl
  | cons p outs ih => exact ih (insertField fields p.1 p.2)

theorem orchestratorInput_object (h : s.inputState = .object fields) :
    s.orchestratorInput results = some (.object (overlay (·) fields (s.completed results))) := by
  rw [orchestratorInput,foldlM_assign,← completed,h,foldlM_object]

theorem orchestratorInput_null (h : s.inputState = .null) (hne : s.completed results ≠ []) :
    s.orchestratorInput results = some (.object (overlay (·) [] (s.completed results))) := by
  obtain ⟨p,outs,hc⟩ := List.exists_cons_of_ne_nil hne
  rw [orchestratorInput,foldlM_assign,← completed,h,hc,List.foldlM_cons]
  exact foldlM_object [(p.1,p.2)] outs

theorem orchestratorInput_none (h : s.completed results = []) :
    s.orchestratorInput results = some s.inputState := by
  rw [orchestratorInput,foldlM_assign,← completed,h]
  rfl

theorem gatherInputs_object (h : s.inputState = .object fields) :
    s.gatherInputs results = .object (overlay ("dep_" ++ ·) fields (s.completed results)) := by
  rw [gatherInputs,h,completed,← foldl_insert]

theorem gatherInputs_null (h : s.inputState = .null) :
    s.gatherInputs results = .object (overlay ("dep_" ++ ·) [] (s.completed results)) := by
  rw [gatherInputs,h,completed,← foldl_insert]

theorem gatherInputs_none (h : s.completed results = []) (hnull : s.inputState ≠ .null) :
    s.gatherInputs results = s.inputState := by
  cases hs : s.inputState with
  | null => exact absurd hs hnull
  | object fields =>
    rw [gatherInputs_object hs,h]
    rfl
  | bool b => rw [gatherInputs,hs]
  | number literal => rw [gatherInputs,hs]
  | string str => rw [gatherInputs,hs]
  | array items => rw [gatherInputs,hs]

/-- The orchestrator panics just on the input states that take no fields. -/
theorem takes_iff : s.Takes results ↔ ∃ v, s.orchestratorInput results = some v := by
  constructor
  · rintro (h | h | ⟨fields,h⟩)
    · exact ⟨_,orchestratorInput_none h⟩
    · by_cases hc : s.completed results = []
      · exact ⟨_,orchestratorInput_none hc⟩
      · exact ⟨_,orchestratorInput_null h hc⟩
    · exact ⟨_,orchestratorInput_object h⟩
  · rintro ⟨v,hv⟩
    cases hc : s.completed results with
    | nil => exact .inl hc
    | cons p outs =>
      rw [orchestratorInput,foldlM_assign,← completed,hc,List.foldlM_cons] at hv
      cases hs : s.inputState with
      | null => exact .inr (.inl hs)
      | object fields => exact .inr (.inr ⟨fields,hs⟩)
      | bool b => simp [hs,indexAssign] at hv
      | number literal => simp [hs,indexAssign] at hv
      | string str => simp [hs,indexAssign] at hv
      | array items => simp [hs,indexAssign] at hv

theorem extends_overlay (hkey : key.Injective)
    (h : s.inputState = .object fields ∨ s.inputState = .null ∧ fields = [])
    (hne : s.completed results = [] → s.inputState = .object fields) :
    s.Extends results key (.object (overlay key fields (s.completed results))) := by
  have hget : ∀ k, fields.lookup k = s.inputState.get k := by
    intro k
    rcases h with h | ⟨h,rfl⟩
    · rw [h,Value.get]
    · rw [h,List.lookup_nil,Value.get]
      intro fields' hf
      cases hf
  refine ⟨?_,?_,?_⟩
  · intro p hp
    rw [Value.get,lookup_overlay_completed hkey]
    exact placed_of_mem hkey hp
  · intro k hk
    rw [Value.get,lookup_overlay_of_notMem hk,hget]
  · intro hc
    rw [hne hc,hc]
    rfl

theorem same_injective : Function.Injective (fun d : String => d) := fun _ _ h => h

/-- The orchestrator adds just the outputs, each under the id of its subtask. -/
theorem extends_orchestratorInput {v : Value} (hv : s.orchestratorInput results = some v) :
    s.Extends results (·) v := by
  by_cases hc : s.completed results = []
  · obtain rfl := Option.some.inj ((orchestratorInput_none hc).symm.trans hv)
    refine ⟨?_,fun _ _ => rfl,fun _ => rfl⟩
    rw [hc]
    exact List.forall_mem_nil _
  · rcases takes_iff.mpr ⟨v,hv⟩ with h | h | ⟨fields,h⟩
    · exact absurd h hc
    · obtain rfl := Option.some.inj ((orchestratorInput_null h hc).symm.trans hv)
      exact extends_overlay same_injective (.inr ⟨h,rfl⟩) (fun hn => absurd hn hc)
    · obtain rfl := Option.some.inj ((orchestratorInput_object h).symm.trans hv)
      exact extends_overlay same_injective (.inl h) (fun _ => h)

theorem dep_injective : Function.Injective (fun d : String => "dep_" ++ d) := by
  intro d e h
  have hlist := congrArg String.toList h
  rw [String.toList_append,String.toList_append] at hlist
  exact String.toList_inj.mp (List.append_cancel_left hlist)

theorem exists_longer (outs : List (String × Value)) : ∃ n, ∀ p ∈ outs, p.1.length < n := by
  induction outs with
  | nil => exact ⟨0,List.forall_mem_nil _⟩
  | cons p outs ih =>
    obtain ⟨n,hn⟩ := ih
    refine ⟨max n (p.1.length + 1),List.forall_mem_cons.mpr ⟨by omega,?_⟩⟩
    intro q hq
    have hlt := hn q hq
    omega

/-- Dependencies that are each the `dep_` key of another one are none. -/
theorem completed_eq_nil_of_ascending
    (h : ∀ p ∈ s.completed results, ∃ q ∈ s.completed results, q.1 = "dep_" ++ p.1) :
    s.completed results = [] := by
  by_contra hne
  have hlong : ∀ n, ∃ p ∈ s.completed results, n ≤ p.1.length := by
    intro n
    induction n with
    | zero =>
      obtain ⟨p,hp⟩ := List.exists_mem_of_ne_nil _ hne
      exact ⟨p,hp,Nat.zero_le _⟩
    | succ n ih =>
      obtain ⟨p,hp,hn⟩ := ih
      obtain ⟨q,hq,heq⟩ := h p hp
      refine ⟨q,hq,?_⟩
      rw [heq,String.length_append]
      have hdep : "dep_".length = 4 := by decide
      omega
  obtain ⟨n,hn⟩ := exists_longer (s.completed results)
  obtain ⟨p,hp,hle⟩ := hlong n
  have hlt := hn p hp
  omega

/-- Both executors give the subtask one input: its input state with the outputs of its completed
dependencies under the same keys. -/
def Agree (s : Subtask) (results : Results) : Prop :=
  ∃ key v, s.orchestratorInput results = some v ∧ Same v (s.gatherInputs results) ∧
    s.Extends results key v ∧ s.Extends results key (s.gatherInputs results)

theorem foreseen_of_same {v : Value} (hv : s.orchestratorInput results = some v)
    (h : Same v (s.gatherInputs results)) : s.Foreseen results := by
  have hcompleted : s.inputState = .null → s.completed results = [] := by
    intro hnull
    apply completed_eq_nil_of_ascending
    intro p hp
    have hne : s.completed results ≠ [] := List.ne_nil_of_mem hp
    obtain rfl := Option.some.inj ((orchestratorInput_null hnull hne).symm.trans hv)
    rw [gatherInputs_null hnull] at h
    have hdep := h ("dep_" ++ p.1)
    rw [lookup_overlay_completed dep_injective,placed_of_mem dep_injective hp] at hdep
    by_contra hno
    have hno : ∀ q ∈ s.completed results, q.1 ≠ "dep_" ++ p.1 := fun q hq heq => hno ⟨q,hq,heq⟩
    rw [lookup_overlay_of_notMem hno] at hdep
    cases hdep
  by_cases hc : s.completed results = []
  · refine .inl ⟨hc,?_⟩
    intro hnull
    obtain rfl := Option.some.inj ((orchestratorInput_none hc).symm.trans hv)
    rw [gatherInputs_null hnull,hnull] at h
    cases h
  · rcases takes_iff.mpr ⟨v,hv⟩ with ht | ht | ⟨fields,ht⟩
    · exact absurd ht hc
    · exact absurd (hcompleted ht) hc
    · refine .inr ⟨fields,ht,?_⟩
      intro p hp
      obtain rfl := Option.some.inj ((orchestratorInput_object ht).symm.trans hv)
      rw [gatherInputs_object ht] at h
      have hid := h p.1
      have hdep := h ("dep_" ++ p.1)
      rw [lookup_overlay_completed same_injective,lookup_overlay_completed dep_injective]
        at hid hdep
      rw [placed_of_mem same_injective hp] at hid
      rw [placed_of_mem dep_injective hp] at hdep
      exact ⟨hid.symm,hdep⟩

theorem same_of_foreseen {v : Value} (hv : s.orchestratorInput results = some v)
    (h : s.Foreseen results) : Same v (s.gatherInputs results) := by
  rcases h with ⟨hc,hnull⟩ | ⟨fields,hs,h⟩
  · obtain rfl := Option.some.inj ((orchestratorInput_none hc).symm.trans hv)
    rw [gatherInputs_none hc hnull]
    cases s.inputState with
    | object fields => exact fun _ => rfl
    | _ => rfl
  · obtain rfl := Option.some.inj ((orchestratorInput_object hs).symm.trans hv)
    rw [gatherInputs_object hs]
    intro k
    rw [lookup_overlay_completed same_injective,lookup_overlay_completed dep_injective]
    by_cases hid : ∃ p ∈ s.completed results, p.1 = k
    · obtain ⟨p,hp,rfl⟩ := hid
      exact (placed_of_mem same_injective hp).trans (h p hp).1.symm
    by_cases hdep : ∃ p ∈ s.completed results, "dep_" ++ p.1 = k
    · obtain ⟨p,hp,rfl⟩ := hdep
      exact (h p hp).2.trans (placed_of_mem dep_injective hp).symm
    rw [placed_of_notMem fun p hp heq => hid ⟨p,hp,heq⟩,
      placed_of_notMem fun p hp heq => hdep ⟨p,hp,heq⟩]

theorem get_congr {v w : Value} (h : Same v w) (k : String) : v.get k = w.get k := by
  cases v with
  | object fields =>
    cases w with
    | object fields' => exact h k
    | _ => cases h
  | _ =>
    cases w with
    | object fields' => cases h
    | _ => rw [h]

theorem takes_of_foreseen (h : s.Foreseen results) : s.Takes results := by
  rcases h with ⟨hc,_⟩ | ⟨fields,hs,_⟩
  · exact .inl hc
  · exact .inr (.inr ⟨fields,hs⟩)

theorem agree_iff : s.Agree results ↔ s.Foreseen results := by
  constructor
  · rintro ⟨key,v,hv,hsame,_⟩
    exact foreseen_of_same hv hsame
  · intro h
    obtain ⟨v,hv⟩ := takes_iff.mp (takes_of_foreseen h)
    have hsame := same_of_foreseen hv h
    have hext := extends_orchestratorInput hv
    refine ⟨(·),v,hv,hsame,hext,?_,?_,?_⟩
    · intro p hp
      rw [← get_congr hsame]
      exact hext.outputs p hp
    · intro k hk
      rw [← get_congr hsame]
      exact hext.rest k hk
    · intro hc
      rcases h with ⟨_,hnull⟩ | ⟨fields,hs,_⟩
      · exact gatherInputs_none hc hnull
      · refine gatherInputs_none hc ?_
        rw [hs]
        intro hnull
        cases hnull

end Subtask

/-! ## The executors -/

/-- How the votes of the microagents on a subtask go: on equal inputs alike. -/
structure Vote where
  outcome : Value → Except String Value
  same : ∀ v w, Same v w → outcome v = outcome w

/-- An executor on its way through the sorted subtasks. -/
structure Progress where
  results : Results
  todo : List Subtask

namespace Progress

/-- The vote on the next subtask, given its input, is over. -/
def voted (p : Progress) (failFast : Bool) (s : Subtask) (rest : List Subtask) :
    Except String Value → Progress
  | .ok v => ⟨(s.id,v) :: p.results,rest⟩
  | .error _ => if failFast then ⟨p.results,[]⟩ else ⟨p.results,rest⟩

/-- The loop of `execute_with_mdap`. A panic ends it. -/
def orchestrate (failFast : Bool) (p : Progress) (vote : Vote) : Progress :=
  match p.todo with
  | [] => p
  | s :: rest =>
    match s.orchestratorInput p.results with
    | none => ⟨p.results,[]⟩
    | some input => p.voted failFast s rest (vote.outcome input)

/-- The loop of `MdapExecutor::execute`, which a failed vote ends. -/
def execute (p : Progress) (vote : Vote) : Progress :=
  match p.todo with
  | [] => p
  | s :: rest => p.voted true s rest (vote.outcome (s.gatherInputs p.results))

end Progress

/-- Both executors on one decomposition, subtask after subtask. -/
def executors (failFast : Bool) : Machine (Progress × Progress) Vote where
  enabled p _ := p.1.todo ≠ [] ∨ p.2.todo ≠ []
  next p vote := (p.1.orchestrate failFast vote,p.2.execute vote)

/-- The next subtask of the orchestrator gets its input there, without a panic, and the same one
from the other executor, if that one has not stopped on a failed vote. -/
def Served (p : Progress × Progress) : Prop :=
  ∀ s ∈ p.1.todo.head?, ∃ key v, s.orchestratorInput p.1.results = some v ∧
    s.Extends p.1.results key v ∧ ∀ t ∈ p.2.todo.head?, t = s ∧
      Same v (t.gatherInputs p.2.results) ∧ t.Extends p.2.results key (t.gatherInputs p.2.results)

/-- The input state of the next subtask takes the outputs to add and, as long as both executors
run, has them already under the keys of the other executor. -/
def Expected (p : Progress × Progress) : Prop :=
  ∀ s ∈ p.1.todo.head?, s.Takes p.1.results ∧ (p.2.todo ≠ [] → s.Foreseen p.1.results)

/-- The executor of the `mdap` module has stopped, or is where the orchestrator is. -/
def Level (p : Progress × Progress) : Prop := p.2.todo = [] ∨ p.2 = p.1

theorem execute_of_stopped {p : Progress} (h : p.todo = []) (vote : Vote) : p.execute vote = p := by
  rw [Progress.execute,h]

theorem served_iff {p : Progress × Progress} (h : Level p) : Served p ↔ Expected p := by
  obtain ⟨o,e⟩ := p
  rcases h with h | h
  · refine forall_congr' (fun s => forall_congr' (fun _ => ?_))
    have htodo : e.todo = [] := h
    constructor
    · rintro ⟨key,v,hv,_⟩
      exact ⟨Subtask.takes_iff.mpr ⟨v,hv⟩,fun hne => absurd htodo hne⟩
    · rintro ⟨htakes,_⟩
      obtain ⟨v,hv⟩ := Subtask.takes_iff.mp htakes
      refine ⟨(·),v,hv,Subtask.extends_orchestratorInput hv,?_⟩
      intro t ht
      simp [htodo] at ht
  · obtain rfl : e = o := h
    refine forall_congr' (fun s => forall_congr' (fun hs => ?_))
    have hne : e.todo ≠ [] := by
      intro h
      simp [h] at hs
    constructor
    · rintro ⟨key,v,hv,hext,h⟩
      obtain ⟨_,hsame,hext'⟩ := h s hs
      have hf := Subtask.foreseen_of_same hv hsame
      exact ⟨Subtask.takes_of_foreseen hf,fun _ => hf⟩
    · rintro ⟨_,hf⟩
      obtain ⟨key,v,hv,hsame,hext,hext'⟩ := Subtask.agree_iff.mpr (hf hne)
      refine ⟨key,v,hv,hext,?_⟩
      intro t ht
      obtain rfl := Option.some.inj (hs.symm.trans ht)
      exact ⟨rfl,hsame,hext'⟩

theorem Level.next {failFast : Bool} {p : Progress × Progress} (h : Level p) (hc : Expected p)
    (vote : Vote) : Level ((executors failFast).next p vote) := by
  obtain ⟨o,e⟩ := p
  rcases h with h | h
  · left
    have he : e.execute vote = e := execute_of_stopped h vote
    exact (congrArg Progress.todo he).trans h
  · obtain rfl : e = o := h
    cases htodo : e.todo with
    | nil =>
      left
      exact (congrArg Progress.todo (execute_of_stopped htodo vote)).trans htodo
    | cons s rest =>
      have hs : s ∈ e.todo.head? := by rw [htodo]; rfl
      have hf : s.Foreseen e.results := (hc s hs).2 (by rw [htodo]; exact List.cons_ne_nil _ _)
      obtain ⟨v,hv⟩ := Subtask.takes_iff.mp (hc s hs).1
      have hsame := vote.same _ _ (Subtask.same_of_foreseen hv hf)
      simp only [Level,executors,Progress.execute,Progress.orchestrate,htodo,hv,← hsame]
      cases vote.outcome v with
      | ok w => exact .inr rfl
      | error _ => exact .inl rfl

def started (sorted : List Subtask) : Progress × Progress := (⟨[],sorted⟩,⟨[],sorted⟩)

/-- On every decomposition, in whatever order it is sorted and however the votes go, both
executors serve all subtasks alike exactly when every subtask has the outputs it waits for in its
input state before. -/
theorem run_inputs_iff {failFast : Bool} {sorted : List Subtask} {votes : List Vote}
    (hr : (executors failFast).Run (started sorted) votes) :
    (∀ p ∈ (executors failFast).trail (started sorted) votes, Served p.1) ↔
      ∀ p ∈ (executors failFast).trail (started sorted) votes, Expected p.1 := by
  refine hr.forall_iff (G := Level) (P := fun p _ => Served p) (C := fun p _ => Expected p) ?_ ?_
    (.inr rfl)
  · intro p vote h _ hc
    exact h.next hc vote
  · intro p vote h _
    exact served_iff h

def said (s : String) : Vote := ⟨fun _ => .ok (.string s),fun _ _ _ => rfl⟩

def undecided : Vote := ⟨fun _ => .error "no winner",fun _ _ _ => rfl⟩

/-- A text is summed up, and nothing is to be added to what the summary has. -/
def summarized : List Subtask :=
  [⟨"read",.string "a text",[]⟩,
    ⟨"sum",.object [("read",.string "words"),("dep_read",.string "words")],["read","skim"]⟩]

theorem summarized_served : (executors false).Run (started summarized) [said "words",undecided] ∧
    ∀ p ∈ (executors false).trail (started summarized) [said "words",undecided], Served p.1 := by
  have hr : (executors false).Run (started summarized) [said "words",undecided] :=
    ⟨.inl (List.cons_ne_nil _ _),.inl (List.cons_ne_nil _ _),trivial⟩
  refine ⟨hr,(run_inputs_iff hr).mpr ?_⟩
  refine Machine.forall_trail_cons.mpr ⟨?_,Machine.forall_trail_cons.mpr ⟨?_,List.forall_mem_nil _⟩⟩
  · intro s hs
    obtain rfl := Option.some.inj hs
    exact ⟨.inl rfl,fun _ => .inl ⟨rfl,fun h => by cases h⟩⟩
  · intro s hs
    obtain rfl := Option.some.inj hs
    refine ⟨.inr (.inr ⟨_,rfl⟩),fun _ => .inr ⟨_,rfl,?_⟩⟩
    exact List.forall_mem_cons.mpr ⟨⟨rfl,rfl⟩,List.forall_mem_nil _⟩

/-- One subtask waits for the output of another one. -/
def waiting : List Subtask := [⟨"read",.object [],[]⟩,⟨"sum",.object [],["read"]⟩]

/-- The orchestrator puts the output under `read`, the other executor under `dep_read`. -/
theorem waiting_differs :
    ¬ ∀ failFast sorted votes, (executors failFast).Run (started sorted) votes →
      ∀ p ∈ (executors failFast).trail (started sorted) votes, Served p.1 := by
  intro h
  have hr : (executors false).Run (started waiting) [said "words",said "sum"] :=
    ⟨.inl (List.cons_ne_nil _ _),.inl (List.cons_ne_nil _ _),trivial⟩
  obtain ⟨key,v,hv,_,h⟩ := h false waiting _ hr _ (.tail _ (.head _)) _ rfl
  obtain ⟨_,hsame,_⟩ := h _ rfl
  obtain rfl := Option.some.inj hv
  cases hsame "read"

end Rullama.Mdap
