import Rullama.Native.Orchestrator

/-! # Orchestration by replay

The passes of the caller are rounds of replays of the script, with a cache that knows a
call by one text made of its name and argument.
-/
namespace Rullama.Native
open Replay (Asking)

variable {V : Type*} {json : JsonLibrary V} {tools : List ITool} {rhai : Rhai V} {script : String}

/-! ## The cache -/

/-- The name of a call has no separator in it, as no function of a script has. -/
def Named (c : ToolCall) : Prop := '\x01' ∉ c.1.toList

instance : DecidablePred Named := fun c => inferInstanceAs (Decidable ('\x01' ∉ c.1.toList))

theorem takeWhile_key {c : ToolCall} (hc : Named c) :
    (cacheKey c).toList.takeWhile (fun ch => ch ≠ '\x01') = c.1.toList := by
  have hall : ∀ ch ∈ c.1.toList, decide (ch ≠ '\x01') = true := by
    intro ch hch
    exact decide_eq_true (fun heq => hc (heq ▸ hch))
  have hsep : ("\x01" : String).toList = ['\x01'] := by decide
  unfold cacheKey
  rw [String.toList_append,String.toList_append,hsep,List.append_assoc,
    List.takeWhile_append_of_pos hall]
  simp

theorem cacheKey_injective {c d : ToolCall} (hc : Named c) (hd : Named d)
    (h : cacheKey c = cacheKey d) : c = d := by
  have hname : c.1 = d.1 := by
    rw [← String.toList_inj,← takeWhile_key hc,← takeWhile_key hd,h]
  have harg : c.2 = d.2 := by
    unfold cacheKey at h
    rw [hname,← String.toList_inj] at h
    rw [← String.toList_inj]
    simpa using h
  exact Prod.ext hname harg

/-- The cache and what is known say the same of every named call. -/
def Agree (cache : Cache V) (known : ToolCall → Option V) : Prop :=
  ∀ c, Named c → cache (cacheKey c) = known c

theorem Agree.storeResults {cache : Cache V} {known : ToolCall → Option V}
    (h : Agree cache known) {calls : List ToolCall} (hcalls : ∀ c ∈ calls, Named c) :
    Agree (storeResults json tools cache calls) (Asking.learn (resolve json tools) known calls) := by
  induction calls generalizing cache known with
  | nil =>
    rw [Asking.learn_nil]
    exact h
  | cons d calls ih =>
    have hstep : Agree (Function.update cache (cacheKey d) (some (resolve json tools d)))
        (Asking.learn (resolve json tools) known [d]) := by
      intro c hc
      by_cases heq : c = d
      · rw [heq,Function.update_self,Asking.learn,if_pos (.head _)]
      · have hkey : cacheKey c ≠ cacheKey d :=
          fun hkey => heq (cacheKey_injective hc (hcalls d (.head _)) hkey)
        rw [Function.update_of_ne hkey,Asking.learn,if_neg (by simpa using heq),h c hc]
    have hrest := ih hstep (fun c hc => hcalls c (.tail _ hc))
    intro c hc
    rw [Native.storeResults,List.foldl_cons]
    refine (hrest c hc).trans ?_
    by_cases hmem : c ∈ calls
    · simp [Asking.learn,hmem]
    · simp [Asking.learn,hmem]

/-! ## Passes are rounds -/

/-- The script as it is evaluated with the registered tools. -/
def evaluation (rhai : Rhai V) (tools : List ITool) (script : String) : Script V :=
  rhai.eval script (registeredNames (toolNamesCsv tools))

theorem runOrchestrator_eq {cache : Cache V} {known : ToolCall → Option V}
    (hnamed : (evaluation rhai tools script).Asks Named) (h : Agree cache known) :
    runOrchestrator rhai script cache (toolNamesCsv tools) =
      match (evaluation rhai tools script).replay known with
      | (.ok value,[]) => .final value
      | (.error message,[]) => .error message
      | (_,c :: calls) => .needed (c :: calls) := by
  have hreplay : (evaluation rhai tools script).replay (fun c => cache (cacheKey c)) =
      (evaluation rhai tools script).replay known := hnamed.replay_congr h
  rw [runOrchestrator,← hreplay]
  rfl

/-- Enough passes end as the rounds of the replay do. -/
theorem runPasses_eq (hnamed : (evaluation rhai tools script).Asks Named) (maxPasses : ℕ) {n : ℕ}
    {cache : Cache V} {known : ToolCall → Option V} (h : Agree cache known)
    {r : Except String String}
    (hr : (Asking.rounds (resolve json tools) (evaluation rhai tools script) n known).1 = some r) :
    runPasses json tools rhai script maxPasses n cache =
      (r,(Asking.rounds (resolve json tools) (evaluation rhai tools script) n known).2) := by
  induction n generalizing cache known with
  | zero => cases hr
  | succ n ih =>
    rw [Asking.rounds] at hr ⊢
    rw [runPasses,runOrchestrator_eq hnamed h]
    have hcalls : ∀ c ∈ ((evaluation rhai tools script).replay known).2, Named c :=
      fun _ hc => hnamed.mem_replay hc
    have hgo : ∀ c calls, (evaluation rhai tools script).replay known =
        (((evaluation rhai tools script).replay known).1,c :: calls) →
        (Asking.rounds (resolve json tools) (evaluation rhai tools script) n
          (Asking.learn (resolve json tools) known (c :: calls))).1 = some r →
        runPasses json tools rhai script maxPasses n (storeResults json tools cache (c :: calls)) =
          (r,(Asking.rounds (resolve json tools) (evaluation rhai tools script) n
            (Asking.learn (resolve json tools) known (c :: calls))).2) := by
      intro c calls hmissed hrest
      refine ih (h.storeResults (fun d hd => hcalls d ?_)) hrest
      rw [hmissed]
      exact hd
    rcases hreplay : (evaluation rhai tools script).replay known with
      ⟨message | value,_ | ⟨c,calls⟩⟩
    · rw [hreplay] at hr
      cases hr
      rfl
    · rw [hreplay] at hr hgo
      dsimp only
      rw [if_neg (List.cons_ne_nil _ _),hgo c calls rfl hr]
      rfl
    · rw [hreplay] at hr
      cases hr
      rfl
    · rw [hreplay] at hr hgo
      dsimp only
      rw [if_neg (List.cons_ne_nil _ _),hgo c calls rfl hr]
      rfl

/-! ## What orchestration comes to -/

theorem agree_empty : Agree (V := V) (fun _ => none) (fun _ => none) := fun _ _ => rfl

theorem knows_empty (f : ToolCall → V) : Asking.Knows f (fun _ => none) := nofun

theorem card_unknown_le (f : ToolCall → V) (s : Script V) :
    (Asking.unknown f s (fun _ => none)).card = (s.answered f).2.dedup.length := by
  rw [← List.card_toFinset]
  congr 1
  ext c
  simp [Asking.mem_unknown]

theorem runAsync_eq (hnamed : (evaluation rhai tools script).Asks Named) {maxPasses : ℕ}
    (hfew : (directly json tools rhai script).2.dedup.length < maxPasses) :
    runAsync json tools rhai script maxPasses = ((directly json tools rhai script).1,
      (Asking.rounds (resolve json tools) (evaluation rhai tools script) maxPasses
        (fun _ => none)).2) := by
  have hcard := (card_unknown_le (resolve json tools) (evaluation rhai tools script)).trans_lt hfew
  exact runPasses_eq hnamed maxPasses agree_empty (Asking.rounds_spec (knows_empty _) hcard).1

/-- The script may go on after a call that misses, even so its result is the right one. -/
theorem runAsync_result (hnamed : (evaluation rhai tools script).Asks Named) {maxPasses : ℕ}
    (hfew : (directly json tools rhai script).2.dedup.length < maxPasses) :
    (runAsync json tools rhai script maxPasses).1 = (directly json tools rhai script).1 := by
  rw [runAsync_eq hnamed hfew]

/-- The same result, with each call that is made directly invoked once and no other call. -/
def Faithful (json : JsonLibrary V) (tools : List ITool) (rhai : Rhai V) (script : String)
    (maxPasses : ℕ) : Prop :=
  (runAsync json tools rhai script maxPasses).1 = (directly json tools rhai script).1 ∧
    (runAsync json tools rhai script maxPasses).2.Nodup ∧
    ∀ c, c ∈ (runAsync json tools rhai script maxPasses).2 ↔
      c ∈ (directly json tools rhai script).2

/-- In no pass does the script, going on after a miss, miss a call twice or one that is not
made directly. -/
def Disciplined (json : JsonLibrary V) (tools : List ITool) (rhai : Rhai V) (script : String) :
    Prop :=
  ∀ pass, (Asking.missed (resolve json tools) (evaluation rhai tools script)
      (fun _ => none) pass).Nodup ∧
    ∀ c ∈ Asking.missed (resolve json tools) (evaluation rhai tools script) (fun _ => none) pass,
      c ∈ (directly json tools rhai script).2

theorem faithful_iff (hnamed : (evaluation rhai tools script).Asks Named) {maxPasses : ℕ}
    (hfew : (directly json tools rhai script).2.dedup.length < maxPasses) :
    Faithful json tools rhai script maxPasses ↔ Disciplined json tools rhai script := by
  have hcard := (card_unknown_le (resolve json tools) (evaluation rhai tools script)).trans_lt hfew
  have hexact := Asking.rounds_exact_iff (knows_empty (resolve json tools)) hcard
  obtain ⟨_,hall,_⟩ := Asking.rounds_spec (knows_empty (resolve json tools)) hcard
  rw [Faithful,runAsync_eq hnamed hfew]
  refine Iff.trans ?_ hexact
  constructor
  · rintro ⟨_,hnodup,hsame⟩
    exact ⟨hnodup,fun c hc => (hsame c).mp hc⟩
  · rintro ⟨hnodup,hin⟩
    refine ⟨rfl,hnodup,fun c => ⟨hin c,fun hc => ?_⟩⟩
    rcases hall c hc with hknown | hasked
    · cases hknown
    · exact hasked

/-- A script that ends with the first miss of a pass is disciplined. -/
theorem disciplined_of_endsOnMiss (h : (evaluation rhai tools script).EndsOnMiss) :
    Disciplined json tools rhai script :=
  fun pass => h.missed (knows_empty _) pass

/-! ## Two scripts -/

/-- JSON values as their texts. -/
def plainText : JsonLibrary String := ⟨some,id,id⟩

def weatherTools : List ITool :=
  [⟨"get_weather",fun _ => .ok "25"⟩,⟨"get_air_quality",fun _ => .ok "good"⟩]

def missed : Except String String := .error "Runtime error: __rl_tool_miss__"

/-- `let w = get_weather("Tokyo"); if w > 20 { get_air_quality("Tokyo") } else { "cool" }` -/
def dependentBranch : Rhai String where
  eval := fun _ _ => .ask ("get_weather","Tokyo") (fun
    | none => .done missed
    | some w =>
      if w = "25" then
        .ask ("get_air_quality","Tokyo") (fun
          | none => .done missed
          | some quality => .done (.ok quality))
      else .done (.ok "cool"))

theorem dependentBranch_faithful : Faithful plainText weatherTools dependentBranch "" 16 := by
  refine (faithful_iff ?_ (by decide)).mpr (disciplined_of_endsOnMiss ?_)
  · refine ⟨by decide,?_⟩
    rintro (_ | w)
    · trivial
    · dsimp only
      split
      · exact ⟨by decide,by rintro (_ | _) <;> trivial⟩
      · trivial
  · refine ⟨⟨_,rfl⟩,fun w => ?_⟩
    dsimp only
    split
    · exact ⟨⟨_,rfl⟩,fun _ => trivial⟩
    · trivial

/-- `try { get_weather("Tokyo") } catch { get_air_quality("Tokyo") }` -/
def caughtMiss : Rhai String where
  eval := fun _ _ => .ask ("get_weather","Tokyo") (fun
    | some w => .done (.ok w)
    | none => .ask ("get_air_quality","Tokyo") (fun
        | none => .done missed
        | some quality => .done (.ok quality)))

theorem caughtMiss_not_faithful :
    ¬ ∀ (rhai : Rhai String) (script : String),
      (evaluation rhai weatherTools script).Asks Named →
      (directly plainText weatherTools rhai script).2.dedup.length < 16 →
        Faithful plainText weatherTools rhai script 16 := by
  intro h
  have hnamed : (evaluation caughtMiss weatherTools "").Asks Named := by
    refine ⟨by decide,?_⟩
    rintro (_ | w)
    · exact ⟨by decide,by rintro (_ | _) <;> trivial⟩
    · trivial
  obtain ⟨_,_,hsame⟩ := h caughtMiss "" hnamed (by decide)
  have hran : (runAsync plainText weatherTools caughtMiss "" 16).2 =
      [("get_weather","Tokyo"),("get_air_quality","Tokyo")] := by decide
  rw [hran] at hsame
  exact absurd ((hsame ("get_air_quality","Tokyo")).mp (by decide)) (by decide)

end Rullama.Native
