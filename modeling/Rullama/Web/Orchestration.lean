import Rullama.Replay.Asking
import Rullama.Text.Stringify
import Rullama.ToolCalls.ToolCall

/-! # The orchestrator of the web app

A script calls tools synchronously, while the tools are asynchronous: it is run again and
again, each time with the results of the calls that the passes before it missed. The scripting
engine is a parameter, and so are the tools, whose results may change from pass to pass and
come in any order.
-/
namespace Rullama.Web
open Text Replay
open Text.Json (Value put parse stringify)
open ToolCalls (toolParams)

/-- A tool's name and the text of its arguments. -/
abbrev Call := Units × Units

abbrev Fields := List (Units × Value)

/-! ## The scripting engine -/

/-- What the engine makes of a script: it throws, or it returns a value with these fields. -/
inductive Outcome where
  | threw (message : Units)
  | success (output : Option Units)
  | failure (error : Option Units)

/-- A call of a registered function is given the text that it returns, or nothing where it
throws. -/
abbrev Script := Asking Call Units Outcome

structure WasmOrchestrator where
  execute : Units → List Units → Script
  registered : ∀ script names, (execute script names).Asks (fun c => c.1 ∈ names)

def orchToolNames : List Units := (toolParams.map Prod.fst).filter (· ≠ units "calculate")

def maxReplays : ℕ := 12

/-! ## The arguments of a call -/

def scalar : Units := units "__scalar__"

/-- The arguments of a call by name, or the one that it has. -/
def safeParseArgs (jsonArgs : Units) : Fields :=
  match parse jsonArgs with
  | some (.object fields) => fields
  | some v => [(scalar,v)]
  | none => [(scalar,.string jsonArgs)]

def normalizeArgs (name : Units) (args : Fields) : Fields :=
  match args.lookup scalar with
  | none => args
  | some v =>
    match toolParams.lookup name with
    | some (key :: _) => [(key,v)]
    | _ => [(units "input",v)]

/-! ## The tools -/

structure ToolRunResult where
  ok : Bool
  summary : Units
  data : Option Fields

structure OrchestrationCall where
  name : Units
  args : Fields
  summary : Units
  ok : Bool

structure OrchestrationResult where
  ok : Bool
  output : Units
  error : Option Units
  calls : List OrchestrationCall
  passes : ℕ

/-- What the tools do in each pass, and the order in which the calls of a pass are settled. -/
structure Tools where
  executeTool : ℕ → Units → Fields → Except Units ToolRunResult
  settle : ℕ → List Call → List Call
  settle_perm : ∀ pass calls, (settle pass calls).Perm calls

def callKey (c : Call) : Units := c.1 ++ unit ' ' :: c.2

def callArgs (c : Call) : Fields := normalizeArgs c.1 (safeParseArgs c.2)

variable (tools : Tools)

/-- A tool that throws fails with the message. -/
def resolve (pass : ℕ) (c : Call) : ToolRunResult :=
  match tools.executeTool pass c.1 (callArgs c) with
  | .ok r => r
  | .error message => ⟨false,units "tool error: " ++ message,none⟩

/-- What the script is given: the data of a tool come after its flag and summary, and replace
them where they have the same names. -/
def ToolRunResult.fields (r : ToolRunResult) : Fields :=
  (r.data.getD []).foldl (fun o f => put o f.1 f.2)
    [(units "ok",.bool r.ok),(units "summary",.string r.summary)]

def ToolRunResult.json (r : ToolRunResult) : Units := stringify (.object r.fields)

def record (c : Call) (r : ToolRunResult) : OrchestrationCall :=
  ⟨c.1,callArgs c,r.summary,r.ok⟩

/-! ## The passes -/

abbrev Cache := Units → Option Units

/-- The missed calls, one for each key. -/
def addMiss (misses : List Call) (c : Call) : List Call :=
  if misses.any (fun d => callKey d = callKey c) then misses else misses ++ [c]

/-- `calls.set(key, …)` -/
def setCall (calls : List (Units × OrchestrationCall)) (key : Units) (call : OrchestrationCall) :
    List (Units × OrchestrationCall) :=
  if calls.any (fun p => p.1 = key) then
    calls.map (fun p => if p.1 = key then (key,call) else p)
  else calls ++ [(key,call)]

/-- The cache and the records, and all that the tools were asked to do. -/
structure Progress where
  cache : Cache
  calls : List (Units × OrchestrationCall)
  executed : List (Call × ToolRunResult)

def Progress.start : Progress := ⟨fun _ => none,[],[]⟩

def Progress.add (p : Progress) (pass : ℕ) (c : Call) : Progress :=
  let r := resolve tools pass c
  ⟨Function.update p.cache (callKey c) (some r.json),setCall p.calls (callKey c) (record c r),
    p.executed ++ [(c,r)]⟩

@[simp] theorem Progress.add_cache (p : Progress) (pass : ℕ) (c : Call) :
    (p.add tools pass c).cache =
      Function.update p.cache (callKey c) (some (resolve tools pass c).json) := rfl

@[simp] theorem Progress.add_executed (p : Progress) (pass : ℕ) (c : Call) :
    (p.add tools pass c).executed = p.executed ++ [(c,resolve tools pass c)] := rfl

def Progress.resolveAll (p : Progress) (pass : ℕ) (misses : List Call) : Progress :=
  (tools.settle pass misses).foldl (fun p c => p.add tools pass c) p

def failed (p : Progress) (pass : ℕ) (error : Units) : OrchestrationResult :=
  ⟨false,[],some error,p.calls.map Prod.snd,pass⟩

/-- The result of a pass that missed nothing. -/
def settled (p : Progress) (pass : ℕ) : Outcome → OrchestrationResult
  | .threw message => failed p pass (units "engine error: " ++ message)
  | .failure error => failed p pass (error.getD (units "script execution failed"))
  | .success output => ⟨true,output.getD [],none,p.calls.map Prod.snd,pass⟩

variable (engine : WasmOrchestrator) (script : Units)

/-- The passes that are left, with the number of the next one. -/
def runPasses : ℕ → ℕ → Progress → OrchestrationResult × Progress
  | 0,_,p =>
    (failed p maxReplays
      (units "did not converge in " ++ units (toString maxReplays) ++ units " passes"),p)
  | n + 1,pass,p =>
    let (outcome,missed) :=
      (engine.execute script orchToolNames).replay (fun c => p.cache (callKey c))
    match outcome,missed.foldl addMiss [] with
    | .threw message,_ => (failed p pass (units "engine error: " ++ message),p)
    | outcome,[] => (settled p pass outcome,p)
    | _,c :: misses => runPasses n (pass + 1) (p.resolveAll tools pass (c :: misses))

def runOrchestration (mod : Except Units WasmOrchestrator) : OrchestrationResult × Progress :=
  match mod with
  | .error message =>
    (⟨false,[],some (units "orchestrator load failed: " ++ message),[],0⟩,.start)
  | .ok engine => runPasses tools engine script maxReplays 1 .start

/-! ## The cache and the records -/

/-- The call is of a function that is registered. -/
def Registered (c : Call) : Prop := c.1 ∈ orchToolNames

theorem space_notMem {c : Call} (hc : Registered c) : unit ' ' ∉ c.1 := by
  have hall : ∀ name ∈ orchToolNames, unit ' ' ∉ name := by decide
  exact hall _ hc

theorem callKey_injective {c d : Call} (hc : Registered c) (hd : Registered d)
    (h : callKey c = callKey d) : c = d := by
  have hname : ∀ {e : Call}, Registered e → (callKey e).takeWhile (· ≠ unit ' ') = e.1 := by
    intro e he
    have hall : ∀ x ∈ e.1, decide (x ≠ unit ' ') = true := by
      intro x hx
      exact decide_eq_true (fun heq => space_notMem he (heq ▸ hx))
    rw [callKey,List.takeWhile_append_of_pos hall,List.takeWhile_cons_of_neg (by simp),
      List.append_nil]
  have hfst : c.1 = d.1 := by rw [← hname hc,← hname hd,h]
  rw [callKey,callKey,hfst] at h
  exact Prod.ext hfst (List.cons.inj (List.append_cancel_left h)).2

theorem foldl_addMiss {missed : List Call} (hmissed : ∀ c ∈ missed, Registered c)
    {misses : List Call} (hmisses : ∀ c ∈ misses, Registered c) (hnodup : misses.Nodup) :
    (missed.foldl addMiss misses).Nodup ∧
      ∀ c, c ∈ missed.foldl addMiss misses ↔ c ∈ misses ∨ c ∈ missed := by
  induction missed generalizing misses with
  | nil => exact ⟨hnodup,fun c => by simp⟩
  | cons d missed ih =>
    rw [List.forall_mem_cons] at hmissed
    rw [List.foldl_cons]
    have hany : misses.any (fun e => callKey e = callKey d) = true ↔ d ∈ misses := by
      rw [List.any_eq_true]
      constructor
      · rintro ⟨e,he,hkey⟩
        exact callKey_injective (hmisses e he) hmissed.1 (of_decide_eq_true hkey) ▸ he
      · exact fun hd => ⟨d,hd,decide_eq_true rfl⟩
    by_cases hd : d ∈ misses
    · rw [addMiss,if_pos (hany.mpr hd)]
      obtain ⟨hrest,hmem⟩ := ih hmissed.2 hmisses hnodup
      refine ⟨hrest,fun c => ?_⟩
      rw [hmem,List.mem_cons]
      by_cases hc : c = d
      · simp [hc,hd]
      · simp [hc]
    · rw [addMiss,if_neg (fun h => hd (hany.mp h))]
      have hmore : ∀ e ∈ misses ++ [d], Registered e :=
        List.forall_mem_append.mpr ⟨hmisses,List.forall_mem_singleton.mpr hmissed.1⟩
      have hnew : (misses ++ [d]).Nodup := by
        refine List.nodup_append.mpr ⟨hnodup,List.nodup_singleton d,?_⟩
        intro e he e' he' heq
        rw [List.mem_singleton] at he'
        exact hd (he' ▸ heq ▸ he)
      obtain ⟨hrest,hmem⟩ := ih hmissed.2 hmore hnew
      refine ⟨hrest,fun c => ?_⟩
      rw [hmem,List.mem_append,List.mem_singleton,List.mem_cons,or_assoc]

/-- The answers that the script was given. -/
def Progress.log (p : Progress) : List (Call × Units) := p.executed.map (fun e => (e.1,e.2.json))

/-- The cache knows what was executed, and each execution was that of a new call in one of the
passes. -/
structure Progress.Holds (tools : Tools) (p : Progress) : Prop where
  cache : ∀ c, Registered c → p.cache (callKey c) = Asking.recalled p.log c
  calls : p.calls = p.executed.map (fun e => (callKey e.1,record e.1 e.2))
  registered : ∀ e ∈ p.executed, Registered e.1
  nodup : (p.executed.map Prod.fst).Nodup
  resolved : ∀ e ∈ p.executed, ∃ pass, e.2 = resolve tools pass e.1

variable {tools} {p : Progress}

theorem Progress.map_log (p : Progress) : p.log.map Prod.fst = p.executed.map Prod.fst := by
  rw [log,List.map_map]
  rfl

theorem Progress.holds_start : Progress.start.Holds tools :=
  ⟨fun _ _ => rfl,rfl,List.forall_mem_nil _,List.nodup_nil,List.forall_mem_nil _⟩

theorem Progress.Holds.add (h : p.Holds tools) {pass : ℕ} {c : Call} (hc : Registered c)
    (hnew : c ∉ p.executed.map Prod.fst) : (p.add tools pass c).Holds tools := by
  have hkey : ∀ e ∈ p.executed, callKey e.1 ≠ callKey c := by
    intro e he heq
    exact hnew (callKey_injective (h.registered e he) hc heq ▸ List.mem_map_of_mem he)
  refine ⟨fun d hd => ?_,?_,?_,?_,?_⟩
  · have hlog : (p.add tools pass c).log = p.log ++ [(c,(resolve tools pass c).json)] := by
      rw [log,log,add_executed,List.map_append]
      rfl
    rw [hlog]
    by_cases heq : d = c
    · have hnone : Asking.recalled p.log c = none :=
        Asking.recalled_eq_none.mpr (p.map_log ▸ hnew)
      rw [Asking.recalled,Option.map_eq_none_iff] at hnone
      rw [heq,add_cache,Function.update_self,Asking.recalled,List.find?_append,hnone]
      simp
    · have hne : callKey d ≠ callKey c := fun hkey => heq (callKey_injective hd hc hkey)
      have hother : ([(c,(resolve tools pass c).json)] : List (Call × Units)).find?
          (fun p => p.1 = d) = none := by
        rw [List.find?_eq_none]
        intro p hp
        rw [List.mem_singleton] at hp
        simp [hp,Ne.symm heq]
      rw [add_cache,Function.update_of_ne hne,h.cache d hd,Asking.recalled,Asking.recalled,
        List.find?_append,hother,Option.or_none]
  · have hany : ¬ p.calls.any (fun e => e.1 = callKey c) = true := by
      rw [h.calls,List.any_eq_true]
      rintro ⟨q,hq,heq⟩
      obtain ⟨e,he,rfl⟩ := List.mem_map.mp hq
      exact hkey e he (of_decide_eq_true heq)
    rw [Progress.add,setCall,if_neg hany,h.calls,List.map_append]
    rfl
  · exact List.forall_mem_append.mpr ⟨h.registered,List.forall_mem_singleton.mpr hc⟩
  · rw [add_executed,List.map_append,List.nodup_append]
    refine ⟨h.nodup,List.nodup_singleton c,?_⟩
    rintro d hd d' hd' rfl
    have hdc : d = c := List.mem_singleton.mp hd'
    exact hnew (hdc ▸ hd)
  · exact List.forall_mem_append.mpr ⟨h.resolved,List.forall_mem_singleton.mpr ⟨pass,rfl⟩⟩

theorem Progress.executed_foldl (pass : ℕ) (calls : List Call) (p : Progress) :
    (calls.foldl (fun p c => p.add tools pass c) p).executed =
      p.executed ++ calls.map (fun c => (c,resolve tools pass c)) := by
  induction calls generalizing p with
  | nil => exact (List.append_nil _).symm
  | cons c calls ih =>
    rw [List.foldl_cons,ih,Progress.add_executed,List.append_assoc]
    rfl

theorem Progress.Holds.foldl {pass : ℕ} {calls : List Call} (hcalls : ∀ c ∈ calls, Registered c)
    (hnodup : calls.Nodup) (h : p.Holds tools) (hnew : ∀ c ∈ calls, c ∉ p.executed.map Prod.fst) :
    (calls.foldl (fun p c => p.add tools pass c) p).Holds tools := by
  induction calls generalizing p with
  | nil => exact h
  | cons c calls ih =>
    rw [List.forall_mem_cons] at hcalls hnew
    rw [List.nodup_cons] at hnodup
    refine ih hcalls.2 hnodup.2 (h.add hcalls.1 hnew.1) (fun d hd hmem => ?_)
    rw [add_executed,List.map_append,List.mem_append] at hmem
    rcases hmem with hold | hc
    · exact hnew.2 d hd hold
    · have hdc : d = c := List.mem_singleton.mp hc
      exact hnodup.1 (hdc ▸ hd)

/-! ## Passes are rounds of a session -/

/-- What the tools answer in a pass. -/
def world (tools : Tools) : Asking.World Call Units := fun pass missed =>
  (tools.settle pass (missed.foldl addMiss [])).map (fun c => (c,(resolve tools pass c).json))

theorem world_answers : (world tools).Answers Registered := by
  intro pass missed hmissed
  obtain ⟨hnodup,hmem⟩ := foldl_addMiss hmissed (List.forall_mem_nil _) List.nodup_nil
  have hmap : ((world tools pass missed).map Prod.fst) =
      tools.settle pass (missed.foldl addMiss []) := by
    rw [world,List.map_map]
    exact List.map_id _
  rw [hmap]
  refine (tools.settle_perm pass _).trans ?_
  rw [List.perm_ext_iff_of_nodup hnodup (List.nodup_dedup _)]
  intro c
  rw [hmem,List.mem_dedup]
  simp

def Outcome.isThrew : Outcome → Bool
  | .threw _ => true
  | _ => false

variable {engine : WasmOrchestrator} {script : Units}

/-- The script as it is evaluated with the tools that are registered. -/
def evaluation (engine : WasmOrchestrator) (script : Units) : Script :=
  engine.execute script orchToolNames

theorem asks_evaluation : (evaluation engine script).Asks Registered :=
  engine.registered script orchToolNames

/-- What the passes end with. -/
def ending (p : Progress) : Option Outcome → ℕ → OrchestrationResult
  | some outcome,pass => settled p pass outcome
  | none,_ => failed p maxReplays
      (units "did not converge in " ++ units (toString maxReplays) ++ units " passes")

theorem Progress.Holds.resolveAll {missed : List Call} (h : p.Holds tools) (pass : ℕ)
    (hmissed : ∀ c ∈ missed, Registered c ∧ c ∉ p.executed.map Prod.fst) :
    (p.resolveAll tools pass (missed.foldl addMiss [])).Holds tools ∧
      (p.resolveAll tools pass (missed.foldl addMiss [])).log =
        p.log ++ world tools pass missed := by
  obtain ⟨hnodup,hmem⟩ :=
    foldl_addMiss (fun c hc => (hmissed c hc).1) (List.forall_mem_nil _) List.nodup_nil
  have hperm := tools.settle_perm pass (missed.foldl addMiss [])
  have hin : ∀ c ∈ tools.settle pass (missed.foldl addMiss []), c ∈ missed := by
    intro c hc
    simpa [hmem] using hperm.mem_iff.mp hc
  constructor
  · exact h.foldl (fun c hc => (hmissed c (hin c hc)).1) (hperm.nodup_iff.mpr hnodup)
      (fun c hc => (hmissed c (hin c hc)).2)
  · rw [Progress.resolveAll,log,executed_foldl,List.map_append,List.map_map]
    rfl

theorem runPasses_session (n pass : ℕ) (h : p.Holds tools) :
    let s := Asking.session (world tools) Outcome.isThrew (evaluation engine script) n pass p.log
    let run := runPasses tools engine script n pass p
    run.2.Holds tools ∧ run.2.log = s.log ∧ run.1 = ending run.2 s.result s.round := by
  induction n generalizing pass p with
  | zero => exact ⟨h,rfl,rfl⟩
  | succ n ih =>
    intro s run
    have hreplay : (evaluation engine script).replay (fun c => p.cache (callKey c)) =
        (evaluation engine script).replay (Asking.recalled p.log) :=
      asks_evaluation.replay_congr h.cache
    have hrun : run = runPasses tools engine script (n + 1) pass p := rfl
    have hs : s = Asking.session (world tools) Outcome.isThrew (evaluation engine script) (n + 1)
      pass p.log := rfl
    rw [Asking.session] at hs
    rw [runPasses,← evaluation,hreplay] at hrun
    rcases hmissed : (evaluation engine script).replay (Asking.recalled p.log) with
      ⟨outcome,_ | ⟨c,missed⟩⟩
    · rw [hmissed] at hrun hs
      rw [hs,hrun]
      cases outcome <;> exact ⟨h,rfl,rfl⟩
    · have hall : ∀ d ∈ c :: missed, Registered d ∧ d ∉ p.executed.map Prod.fst := by
        intro d hd
        have hd' : d ∈ ((evaluation engine script).replay (Asking.recalled p.log)).2 := by
          rw [hmissed]
          exact hd
        refine ⟨asks_evaluation.mem_replay hd',?_⟩
        rw [← p.map_log]
        exact Asking.recalled_eq_none.mp (Asking.mem_replay_unknown hd')
      have hnext : ∃ d misses, (c :: missed).foldl addMiss [] = d :: misses := by
        obtain ⟨_,hmem⟩ := foldl_addMiss (fun d hd => (hall d hd).1)
          (List.forall_mem_nil Registered) List.nodup_nil
        have hc := (hmem c).mpr (.inr List.mem_cons_self)
        exact List.exists_cons_of_ne_nil (List.ne_nil_of_mem hc)
      obtain ⟨d,misses,hmisses⟩ := hnext
      obtain ⟨hholds,hlog⟩ := h.resolveAll pass hall
      have hrest := ih (pass + 1) hholds
      rw [hlog] at hrest
      rw [hmissed] at hrun hs
      dsimp only at hrun hs
      rw [hmisses] at hrun hrest
      rw [hs,hrun]
      cases outcome with
      | threw message => exact ⟨h,rfl,rfl⟩
      | success output => exact hrest
      | failure error => exact hrest

/-! ## What the script is given -/

theorem keys_put (fields : Fields) (k : Units) (v : Value) :
    (put fields k v).map Prod.fst =
      if k ∈ fields.map Prod.fst then fields.map Prod.fst else fields.map Prod.fst ++ [k] := by
  have hany : fields.any (fun f => f.1 == k) = true ↔ k ∈ fields.map Prod.fst := by
    rw [List.any_eq_true,List.mem_map]
    simp
  unfold put
  by_cases hk : k ∈ fields.map Prod.fst
  · rw [if_pos (hany.mpr hk),if_pos hk,List.map_map]
    refine List.map_congr_left fun f _ => ?_
    by_cases hf : f.1 = k
    · simp [hf]
    · simp [hf]
  · rw [if_neg (fun h => hk (hany.mp h)),if_neg hk,List.map_append]
    rfl

theorem nodup_put {fields : Fields} (h : (fields.map Prod.fst).Nodup) (k : Units) (v : Value) :
    ((put fields k v).map Prod.fst).Nodup := by
  rw [keys_put]
  split
  · exact h
  · rw [← List.concat_eq_append]
    exact h.concat ‹_›

theorem validFields_iff {fields : Fields} :
    Json.ValidFields fields ↔ ∀ f ∈ fields, Json.Valid f.2 := by
  induction fields with
  | nil => exact iff_of_true trivial (List.forall_mem_nil _)
  | cons f fields ih =>
    rw [Json.ValidFields,ih,List.forall_mem_cons]

theorem validFields_put {fields : Fields} (h : Json.ValidFields fields) (k : Units) {v : Value}
    (hv : Json.Valid v) : Json.ValidFields (put fields k v) := by
  rw [validFields_iff] at h ⊢
  unfold put
  split
  · intro f hf
    obtain ⟨g,hg,rfl⟩ := List.mem_map.mp hf
    split
    · exact hv
    · exact h g hg
  · exact List.forall_mem_append.mpr ⟨h,List.forall_mem_singleton.mpr hv⟩

theorem valid_foldl_put {data fields : Fields} (hdata : Json.ValidFields data)
    (h : Json.Valid (.object fields)) :
    Json.Valid (.object (data.foldl (fun o f => put o f.1 f.2) fields)) := by
  induction data generalizing fields with
  | nil => exact h
  | cons f data ih => exact ih hdata.2 ⟨nodup_put h.1 f.1 f.2,validFields_put h.2 f.1 hdata.1⟩

/-- The text of a result reads back as its fields. -/
theorem ToolRunResult.parse_json {r : ToolRunResult} (h : Json.ValidFields (r.data.getD [])) :
    parse r.json = some (.object r.fields) := by
  refine Json.parse_stringify (valid_foldl_put h ⟨?_,trivial,trivial,trivial⟩)
  change [units "ok",units "summary"].Nodup
  decide

theorem lookup_cons_eq (f : Units × Value) (fields : Fields) (key : Units) :
    (f :: fields).lookup key = if key = f.1 then some f.2 else fields.lookup key := by
  rw [List.lookup_cons]
  by_cases hkey : key = f.1
  · rw [if_pos hkey,beq_iff_eq.mpr hkey]
  · rw [if_neg hkey,beq_eq_false_iff_ne.mpr hkey]

theorem lookup_replace (fields : Fields) (k key : Units) (v : Value) :
    (fields.map (fun f => if f.1 == k then (k,v) else f)).lookup key =
      if key = k then (fields.lookup k).map (fun _ => v) else fields.lookup key := by
  induction fields with
  | nil => simp
  | cons f fields ih =>
    rw [List.map_cons,lookup_cons_eq,lookup_cons_eq,lookup_cons_eq,ih]
    by_cases hf : f.1 = k
    · by_cases hkey : key = k
      · simp [hkey,hf]
      · simp [hkey,hf]
    · by_cases hkey : key = k
      · simp [hkey,hf,Ne.symm hf]
      · simp [hkey,hf]

theorem lookup_put (fields : Fields) (k key : Units) (v : Value) :
    (put fields k v).lookup key = if key = k then some v else fields.lookup key := by
  unfold put
  by_cases hany : fields.any (fun f => f.1 == k) = true
  · rw [if_pos hany,lookup_replace]
    have hsome : (fields.lookup k).isSome := by
      obtain ⟨f,hf,heq⟩ := List.any_eq_true.mp hany
      rw [List.lookup_isSome_iff]
      exact ⟨f,hf,beq_iff_eq.mpr (beq_iff_eq.mp heq).symm⟩
    obtain ⟨w,hw⟩ := Option.isSome_iff_exists.mp hsome
    rw [hw]
    rfl
  · rw [if_neg hany,List.lookup_append]
    have hnone : fields.lookup k = none := by
      rw [List.lookup_eq_none_iff]
      intro f hf
      rw [bne_iff_ne]
      rintro rfl
      exact hany (List.any_eq_true.mpr ⟨f,hf,beq_self_eq_true _⟩)
    rw [lookup_cons_eq]
    by_cases hkey : key = k
    · rw [if_pos hkey,if_pos hkey,hkey,hnone]
      rfl
    · rw [if_neg hkey,if_neg hkey]
      exact Option.or_none

theorem lookup_foldl_put {data : Fields} (h : (data.map Prod.fst).Nodup) (fields : Fields)
    (key : Units) : (data.foldl (fun o f => put o f.1 f.2) fields).lookup key =
      (data.lookup key).or (fields.lookup key) := by
  induction data generalizing fields with
  | nil => rfl
  | cons f data ih =>
    rw [List.map_cons,List.nodup_cons] at h
    rw [List.foldl_cons,ih h.2,lookup_put,lookup_cons_eq]
    by_cases hkey : key = f.1
    · have hnone : data.lookup key = none := by
        rw [List.lookup_eq_none_iff]
        intro g hg
        rw [bne_iff_ne]
        intro heq
        exact h.1 (List.mem_map.mpr ⟨g,hg,heq.symm.trans hkey⟩)
      rw [if_pos hkey,if_pos hkey,hnone]
      rfl
    · rw [if_neg hkey,if_neg hkey]

/-- It has the data of the tool, and its flag and summary where the data have no such names. -/
theorem ToolRunResult.lookup_fields {r : ToolRunResult}
    (h : ((r.data.getD []).map Prod.fst).Nodup) (key : Units) :
    r.fields.lookup key = ((r.data.getD []).lookup key).or
      ([(units "ok",.bool r.ok),(units "summary",.string r.summary)].lookup key) :=
  lookup_foldl_put h _ key

/-! ## What a run comes to -/

/-- The script with these results of its calls, and the calls that it makes. -/
def directly (engine : WasmOrchestrator) (script : Units) (f : Call → Units) :
    Outcome × List Call :=
  (evaluation engine script).answered f

/-- The script has been given these results. -/
def Progress.Given (p : Progress) (f : Call → Units) : Prop :=
  ∀ e ∈ p.executed, f e.1 = e.2.json

theorem Progress.Given.gives {f : Call → Units} (h : p.Given f) : Asking.Gives f p.log := by
  intro q hq
  obtain ⟨e,he,rfl⟩ := List.mem_map.mp hq
  exact (h e he).symm

/-- The orchestrator as it runs from the beginning. -/
theorem runPasses_start (tools : Tools) (engine : WasmOrchestrator) (script : Units) :
    let s := Asking.session (world tools) Outcome.isThrew (evaluation engine script) maxReplays 1 []
    let run := runPasses tools engine script maxReplays 1 .start
    run.2.Holds tools ∧ run.2.log = s.log ∧ run.1 = ending run.2 s.result s.round :=
  runPasses_session maxReplays 1 Progress.holds_start

theorem calls_ending (p : Progress) (result : Option Outcome) (pass : ℕ) :
    (ending p result pass).calls = p.calls.map Prod.snd := by
  rcases result with _ | _ | _ | _ <;> rfl

/-- Whatever the tools do and in whatever order they end, no call is executed twice, the
records are those of the executions, and a script that comes to an end has come to it with the
results that its calls had, all of which have been executed. -/
theorem runOrchestration_sound (tools : Tools) (script : Units)
    (mod : Except Units WasmOrchestrator) :
    let run := runOrchestration tools script mod
    (run.2.executed.map Prod.fst).Nodup ∧
      (∀ e ∈ run.2.executed, ∃ pass, e.2 = resolve tools pass e.1) ∧
      run.1.calls = run.2.executed.map (fun e => record e.1 e.2) ∧
      (run.1.ok = true → ∃ engine, mod = .ok engine ∧ ∀ f, run.2.Given f →
        (∃ output, (directly engine script f).1 = .success output ∧
          run.1.output = output.getD []) ∧
        ∀ c ∈ (directly engine script f).2, c ∈ run.2.executed.map Prod.fst) := by
  cases mod with
  | error message => exact ⟨List.nodup_nil,List.forall_mem_nil _,rfl,nofun⟩
  | ok engine =>
    intro run
    obtain ⟨hholds,hlog,hrun⟩ := runPasses_start tools engine script
    refine ⟨hholds.nodup,hholds.resolved,?_,fun hok => ⟨engine,rfl,fun f hf => ?_⟩⟩
    · change (runPasses tools engine script maxReplays 1 .start).1.calls = _
      rw [hrun,calls_ending,hholds.calls,List.map_map]
      rfl
    · change (runPasses tools engine script maxReplays 1 .start).1.ok = true at hok
      have hgives := hf.gives
      change Asking.Gives f (runPasses tools engine script maxReplays 1 .start).2.log at hgives
      rw [hlog] at hgives
      have hout : run.1 = ending run.2 _ _ := hrun
      rw [hrun] at hok
      rcases hresult : (Asking.session (world tools) Outcome.isThrew (evaluation engine script)
        maxReplays 1 []).result with _ | message | output | error
      · rw [hresult] at hok
        cases hok
      · rw [hresult] at hok
        cases hok
      · obtain ⟨hdirect,hcalls⟩ := Asking.session_sound hresult rfl hgives
        rw [hresult] at hout
        refine ⟨⟨output,hdirect.symm,by rw [hout]; rfl⟩,fun c hc => ?_⟩
        rw [← Progress.map_log]
        exact hlog ▸ hcalls c hc
      · rw [hresult] at hok
        cases hok

/-- These can be the results of the tools, each in some pass. -/
def Possible (tools : Tools) (f : Call → Units) : Prop :=
  ∀ c, ∃ pass, f c = (resolve tools pass c).json

theorem Progress.Holds.possible (h : p.Holds tools) : ∃ f, Possible tools f ∧ p.Given f := by
  refine ⟨fun c => (Asking.recalled p.log c).getD (resolve tools 1 c).json,fun c => ?_,?_⟩
  · dsimp only
    cases hc : Asking.recalled p.log c with
    | none => exact ⟨1,rfl⟩
    | some text =>
      obtain ⟨q,hq,rfl⟩ := Option.map_eq_some_iff.mp hc
      obtain ⟨e,he,rfl⟩ := List.mem_map.mp (List.mem_of_find?_eq_some hq)
      obtain ⟨pass,hpass⟩ := h.resolved e he
      have hkey := List.find?_some hq
      rw [decide_eq_true_eq] at hkey
      change e.1 = c at hkey
      exact ⟨pass,by rw [Option.getD_some,hpass,hkey]⟩
  · intro e he
    dsimp only
    cases hc : Asking.recalled p.log e.1 with
    | none =>
      refine absurd ?_ (Asking.recalled_eq_none.mp hc)
      rw [p.map_log]
      exact List.mem_map_of_mem he
    | some text =>
      obtain ⟨q,hq,rfl⟩ := Option.map_eq_some_iff.mp hc
      obtain ⟨e',he',rfl⟩ := List.mem_map.mp (List.mem_of_find?_eq_some hq)
      have hkey := List.find?_some hq
      rw [decide_eq_true_eq] at hkey
      cases List.inj_on_of_nodup_map h.nodup he' he hkey
      rfl

/-- A script that makes fewer calls than there are passes, whatever their results, and that the
engine never throws at comes to its own end, in at most one pass more than it makes calls. -/
theorem runOrchestration_settles (tools : Tools) (engine : WasmOrchestrator) (script : Units)
    (hgo : ∀ known, ((evaluation engine script).replay known).1.isThrew = false)
    (hfew : ∀ f, Possible tools f → (directly engine script f).2.dedup.length < maxReplays) :
    let run := runOrchestration tools script (.ok engine)
    ∃ f, Possible tools f ∧ run.2.Given f ∧
      run.1 = settled run.2 run.1.passes (directly engine script f).1 ∧
      run.1.passes ≤ (directly engine script f).2.dedup.length + 1 := by
  intro run
  obtain ⟨hholds,hlog,hrun⟩ := runPasses_start tools engine script
  obtain ⟨f,hpossible,hgiven⟩ := hholds.possible
  have hgives := hgiven.gives
  rw [hlog] at hgives
  have hcard : (Asking.unknown f (evaluation engine script) (Asking.recalled [])).card =
      (directly engine script f).2.dedup.length := by
    rw [← List.card_toFinset]
    congr 1
    ext c
    simp [Asking.mem_unknown,Asking.recalled,directly]
  obtain ⟨outcome,hresult,hstop,hround⟩ := Asking.session_ends asks_evaluation world_answers hgo
    hgives (hcard ▸ hfew f hpossible)
  have hdirect := (Asking.session_sound hresult hstop hgives).1
  have hout : run.1 = ending run.2 _ _ := hrun
  rw [hresult,hdirect] at hout
  have hpasses : run.1.passes = (Asking.session (world tools) Outcome.isThrew
      (evaluation engine script) maxReplays 1 []).round := by
    rw [hout]
    change (settled _ _ _).passes = _
    cases ((evaluation engine script).answered f).1 <;> rfl
  refine ⟨f,hpossible,hgiven,?_,by omega⟩
  rw [hpasses]
  exact hout

/-- `let w = get_weather("Tokyo"); if … { get_air_quality("Tokyo") } else { "cool" }` -/
def dependentStep (names : List Units) : Script :=
  if units "get_weather" ∈ names ∧ units "get_air_quality" ∈ names then
    .ask (units "get_weather",units "\"Tokyo\"") (fun
      | none => .done (.failure none)
      | some w =>
        if (parse w).isSome then
          .ask (units "get_air_quality",units "\"Tokyo\"") (fun
            | none => .done (.failure none)
            | some quality => .done (.success (some quality)))
        else .done (.success (some (units "cool"))))
  else .done (.failure none)

def dependentScript : WasmOrchestrator where
  execute := fun _ names => dependentStep names
  registered := by
    intro _ names
    unfold dependentStep
    split
    · rename_i h
      refine ⟨h.1,?_⟩
      rintro (_ | w)
      · trivial
      · dsimp only
        split
        · exact ⟨h.2,by rintro (_ | _) <;> trivial⟩
        · trivial
    · trivial

/-- Tools that tell the pass that they are called in, the last call of it first. -/
def passTools : Tools where
  executeTool := fun pass _ _ => .ok ⟨true,units (toString pass),none⟩
  settle := fun _ calls => calls.reverse
  settle_perm := fun _ calls => calls.reverse_perm

theorem dependentScript_settles :
    let run := runOrchestration passTools [] (.ok dependentScript)
    ∃ f, Possible passTools f ∧ run.2.Given f ∧
      run.1 = settled run.2 run.1.passes (directly dependentScript [] f).1 ∧
      run.1.passes ≤ (directly dependentScript [] f).2.dedup.length + 1 := by
  have hstep : evaluation dependentScript [] = dependentStep orchToolNames := rfl
  have hnames : units "get_weather" ∈ orchToolNames ∧ units "get_air_quality" ∈ orchToolNames := by
    decide
  refine runOrchestration_settles passTools dependentScript [] ?_ ?_
  · intro known
    rw [hstep,dependentStep,if_pos hnames,Asking.replay]
    cases known (units "get_weather",units "\"Tokyo\"") with
    | none => rfl
    | some w =>
      dsimp only
      split
      · rw [Asking.replay]
        cases known (units "get_air_quality",units "\"Tokyo\"") <;> rfl
      · rfl
  · intro f _
    refine (List.dedup_sublist _).length_le.trans_lt ?_
    rw [directly,hstep,dependentStep,if_pos hnames,Asking.answered]
    dsimp only
    split
    · change 2 < maxReplays
      decide
    · change 1 < maxReplays
      decide

end Rullama.Web
