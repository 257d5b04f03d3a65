import Rullama.Tools.Executor

/-! # The gate before a tool

An execution that reaches `route_tool` has passed every refusing check, was blocked by no
hook it ran, and has obtained the approvals that the executor asks for. Without an approval
channel it asks nobody; an `allow` rule takes the question back, whoever asked for it.
-/
namespace Rullama.Tools

/-- An approval of this call: given by the user who was asked about it, or remembered. -/
def Answer.Grants (toolUse : ToolUse) : Answer → Prop
  | .remembered response => response.isApproved = true
  | .user request response => request.toolName = toolUse.name ∧
      request.parameters = toolUse.input ∧ ∃ r, response = .ok r ∧ r.isApproved = true
  | .noChannel => False

def Execution.Approved (x : Execution) (toolUse : ToolUse) : Prop :=
  ∃ answer ∈ x.answer, answer.Grants toolUse

structure AgentCapabilities.Permits (c : AgentCapabilities) (toLowercase : String → String)
    (toolUse : ToolUse) : Prop where
  tool : c.allowsTool toolUse.name = true
  write : ∀ path ∈ gatePath toolUse.input, isWrite toolUse.name = true → c.allowsWrite path = true
  read : ∀ path ∈ gatePath toolUse.input, isWrite toolUse.name = false → c.allowsRead path = true
  domain : ∀ domain ∈ (toolUse.input.str "url").bind (extractDomainFromUrl toLowercase),
    c.allowsDomain domain = true

theorem AgentCapabilities.permits_of {c : AgentCapabilities} {toLowercase : String → String}
    {toolUse : ToolUse} (h : c.refusal toLowercase toolUse = none) :
    c.Permits toLowercase toolUse := by
  simp only [refusal,Option.or_eq_none_iff] at h
  obtain ⟨⟨ht,hp⟩,hd⟩ := h
  refine ⟨?_,fun path hx hw => ?_,fun path hx hw => ?_,fun domain hx => ?_⟩
  · by_contra hc
    rw [toolRefusal,if_neg hc] at ht
    cases ht
  · by_contra hc
    rw [pathRefusal,Option.mem_def.mp hx] at hp
    simp only [hw,hc,if_true] at hp
    cases hp
  · by_contra hc
    rw [pathRefusal,Option.mem_def.mp hx] at hp
    simp only [hw,hc] at hp
    cases hp
  · by_contra hc
    rw [domainRefusal,Option.mem_def.mp hx] at hd
    simp only [hc] at hd
    cases hd

namespace ToolExecutor
variable (self : ToolExecutor) (ext : External) (toolUse : ToolUse) (context : ToolContext)

def AskRuleMatches : Prop :=
  ∃ p ∈ self.permissions, ∃ rule ∈ p.ask, ruleMatches rule toolUse.name toolUse.input = true

def PolicyAsks : Prop :=
  self.policyAction ext toolUse context = some .requireApproval ∨
    self.policyAction ext toolUse context = some .escalate

def RelayAsks : Prop :=
  self.orgPermissionRelayRequired = true ∧ toolRequiresApproval toolUse.name = true

/-- The tool is one of those the executor asks about in auto mode. -/
def Sensitive : Prop :=
  ∃ tool ∈ self.registry toolUse.name,
    (tool.requiresApproval || toolRequiresApproval toolUse.name) = true

/-- What holds of an execution that reached the tool, where `demand` says that an approval is
due. -/
structure Admitted (demand : Prop) : Prop where
  known : (self.registry toolUse.name).isSome = true
  notBlocked : toolUse.name ∉ self.orgBlockedTools
  notDenied : ∀ p ∈ self.permissions, ∀ rule ∈ p.deny,
    ruleMatches rule toolUse.name toolUse.input = false
  capable : ∀ c ∈ context.capabilities.bind ext.capabilities, c.Permits ext.toLowercase toolUse
  notRefused : ∀ action ∈ self.policyAction ext toolUse context,
    action ≠ .deny ∧ ∀ text, action ≠ .denyWithMessage text
  notHooked : ∀ hook reason, (hook,.block reason) ∉ (self.execute ext toolUse context).hooks
  approved : demand → (self.execute ext toolUse context).Approved toolUse

variable {self ext toolUse context} {tool : Tool} {answer : Option Answer}

theorem dispatch_answer : (self.dispatch ext toolUse context answer).answer = answer := by
  simp only [dispatch]
  split
  · rfl
  · split
    · rfl
    · rfl

theorem dispatchPreTool_block {toolName : String} {hook : HookCommand} {reason : String}
    (h : (hook,.block reason) ∈ (self.dispatchPreTool ext toolName).1) :
    (self.dispatchPreTool ext toolName).2 = .block reason := by
  cases hh : self.hooks with
  | none =>
    simp only [dispatchPreTool,hh] at h
    cases h
  | some hooks =>
    simp only [dispatchPreTool,hh] at h ⊢
    exact runMatchers_block h

theorem dispatch_routed (h : (self.dispatch ext toolUse context answer).routed = true)
    (hook : HookCommand) (reason : String) :
    (hook,.block reason) ∉ (self.dispatch ext toolUse context answer).hooks := by
  intro hb
  cases hu : self.acquireForTool toolUse context with
  | error e =>
    simp only [dispatch,hu] at h
    cases h
  | ok u =>
    cases hp : (self.dispatchPreTool ext toolUse.name).2 with
    | block text =>
      simp only [dispatch,hu,hp] at h
      cases h
    | «continue» =>
      simp only [dispatch,hu,hp] at hb
      cases hp.symm.trans (dispatchPreTool_block hb)
    | softError text =>
      simp only [dispatch,hu,hp] at hb
      cases hp.symm.trans (dispatchPreTool_block hb)

/-- The two ways to the tool. -/
theorem execute_routed (h : (self.execute ext toolUse context).routed = true) :
    ∃ tool ∈ self.registry toolUse.name, self.refusal ext tool toolUse context = none ∧
      ∃ answer, self.execute ext toolUse context = self.dispatch ext toolUse context answer ∧
        (self.needsApproval tool toolUse.name (self.settingsDecision toolUse) = true →
          answer = some (self.requestApproval tool toolUse) ∧
          ∃ r, (self.requestApproval tool toolUse).response = .ok r ∧ r.isApproved = true) := by
  simp only [execute] at h ⊢
  split at h
  · cases h
  rename_i tool ht
  split at h
  · cases h
  rename_i hr
  split at h
  · rename_i hn
    split at h
    · rename_i r hok
      split at h
      · rename_i ha
        exact ⟨tool,ht,hr,_,by rw [if_pos hn,if_pos ha],fun _ => ⟨rfl,r,hok,ha⟩⟩
      · cases h
    · cases h
  · rename_i hn
    exact ⟨tool,ht,hr,none,by rw [if_neg hn],fun hc => absurd hc hn⟩

/-- With a channel the approval that lets the execution go on is one of this call. -/
theorem requestApproval_grants (hc : self.approvalTx.isSome = true) {r : ApprovalResponse}
    (hr : (self.requestApproval tool toolUse).response = .ok r) (ha : r.isApproved = true) :
    (self.requestApproval tool toolUse).Grants toolUse := by
  obtain ⟨send,hs⟩ := Option.isSome_iff_exists.mp hc
  simp only [requestApproval,hs] at hr ⊢
  split at hr
  · cases hr
    exact ha
  · exact ⟨rfl,rfl,r,hr,ha⟩

/-! ## What the checks leave -/

theorem settingsRefusal_none (h : self.settingsRefusal toolUse = none) {p : Permissions}
    (hp : self.permissions = some p) {rule : String} (hr : rule ∈ p.deny) :
    ruleMatches rule toolUse.name toolUse.input = false := by
  by_contra hm
  have hs : (p.deny.find? (ruleMatches · toolUse.name toolUse.input)).isSome :=
    List.find?_isSome.mpr ⟨rule,hr,by simpa using hm⟩
  obtain ⟨found,hf⟩ := Option.isSome_iff_exists.mp hs
  simp only [settingsRefusal,settingsDecision,hp,Option.map_some,Option.getD_some,
    Permissions.decide,hf] at h
  cases h

theorem settingsDecision_ask (h : self.settingsRefusal toolUse = none)
    (ha : self.AskRuleMatches toolUse) : self.settingsDecision toolUse = .ask := by
  obtain ⟨p,hp,rule,hr,hm⟩ := ha
  rw [Option.mem_def] at hp
  have hd : p.deny.find? (ruleMatches · toolUse.name toolUse.input) = none := by
    rw [List.find?_eq_none]
    intro x hx
    rw [settingsRefusal_none h hp hx]
    exact Bool.false_ne_true
  have hy : p.ask.any (ruleMatches · toolUse.name toolUse.input) = true :=
    List.any_eq_true.mpr ⟨rule,hr,hm⟩
  simp only [settingsDecision,hp,Option.map_some,Option.getD_some,Permissions.decide,hd,hy,if_true]

theorem policyRefusal_none (h : self.policyRefusal ext toolUse context = none)
    {action : PolicyAction} (ha : self.policyAction ext toolUse context = some action) :
    (action ≠ .deny ∧ ∀ text, action ≠ .denyWithMessage text) ∧
      (action = .requireApproval ∨ action = .escalate → self.permissionMode = .auto) := by
  rw [policyRefusal,ha] at h
  cases action with
  | deny => cases h
  | denyWithMessage text => cases h
  | requireApproval =>
    by_cases hm : self.permissionMode = .auto
    · exact ⟨⟨nofun,nofun⟩,fun _ => hm⟩
    · simp only [hm,if_false] at h
      cases h
  | escalate =>
    by_cases hm : self.permissionMode = .auto
    · exact ⟨⟨nofun,nofun⟩,fun _ => hm⟩
    · simp only [hm,if_false] at h
      cases h
  | allow => exact ⟨⟨nofun,nofun⟩,by simp⟩
  | allowWithAudit => exact ⟨⟨nofun,nofun⟩,by simp⟩

/-- Every check but the approvals. -/
theorem admitted_of {demand : Prop} (h : (self.execute ext toolUse context).routed = true)
    (ha : demand → (self.execute ext toolUse context).Approved toolUse) :
    self.Admitted ext toolUse context demand := by
  obtain ⟨tool,ht,hr,answer,hx,-⟩ := execute_routed h
  simp only [refusal,Option.or_eq_none_iff] at hr
  obtain ⟨⟨⟨⟨ho,hs⟩,hc⟩,hp⟩,-⟩ := hr
  refine ⟨Option.isSome_iff_exists.mpr ⟨tool,ht⟩,fun hb => ?_,
    fun p hp rule => settingsRefusal_none hs hp,fun c hq => ?_,
    fun action hq => (policyRefusal_none hp hq).1,?_,ha⟩
  · rw [orgRefusal,if_pos (List.contains_iff_mem.mpr hb)] at ho
    cases ho
  · rw [capabilityRefusal,Option.mem_def.mp hq] at hc
    exact AgentCapabilities.permits_of hc
  · rw [hx] at h ⊢
    exact dispatch_routed h

/-- An approval is due where there is a channel to ask through, and an ask rule matches or,
no settings rule deciding to allow, the organisation relays the tool or the policy engine
asks about a sensitive one. -/
def Due (self : ToolExecutor) (ext : External) (toolUse : ToolUse) (context : ToolContext) : Prop :=
  self.approvalTx.isSome = true ∧ (self.AskRuleMatches toolUse ∨
    self.settingsDecision toolUse ≠ .allow ∧ (self.RelayAsks toolUse ∨
      self.PolicyAsks ext toolUse context ∧ self.Sensitive toolUse))

theorem needsApproval_of_due (h : self.Due ext toolUse context)
    (hr : self.refusal ext tool toolUse context = none) (ht : self.registry toolUse.name = some tool) :
    self.needsApproval tool toolUse.name (self.settingsDecision toolUse) = true := by
  simp only [refusal,Option.or_eq_none_iff] at hr
  obtain ⟨⟨⟨⟨-,hs⟩,-⟩,hp⟩,-⟩ := hr
  obtain ⟨hc,ha | ⟨hd,hw⟩⟩ := h
  · simp [needsApproval,settingsDecision_ask hs ha,hc]
  · rcases hw with ⟨ho,hn⟩ | ⟨hq,tool',ht',hn⟩
    · cases hx : self.settingsDecision toolUse with
      | allow => exact absurd hx hd
      | _ => simp [needsApproval,ho,hn]
    · cases ht.symm.trans ht'
      have hm : self.permissionMode = .auto := by
        rcases hq with hq | hq
        · exact (policyRefusal_none hp hq).2 (.inl rfl)
        · exact (policyRefusal_none hp hq).2 (.inr rfl)
      cases hx : self.settingsDecision toolUse with
      | allow => exact absurd hx hd
      | _ => simp [needsApproval,hc,hm,hn]

/-- An execution that reaches the tool has passed every refusing check and every hook it ran,
was in auto mode where the policy engine asks, and obtained the approval that was due. -/
theorem execute_admitted (h : (self.execute ext toolUse context).routed = true) :
    self.Admitted ext toolUse context (self.Due ext toolUse context) ∧
      (self.PolicyAsks ext toolUse context → self.permissionMode = .auto) := by
  obtain ⟨tool,ht,hr,answer,hx,ha⟩ := execute_routed h
  refine ⟨admitted_of h (fun hd => ?_),fun hq => ?_⟩
  · obtain ⟨rfl,r,hok,hy⟩ := ha (needsApproval_of_due hd hr ht)
    exact ⟨_,by rw [hx,dispatch_answer]; rfl,requestApproval_grants hd.1 hok hy⟩
  · simp only [refusal,Option.or_eq_none_iff] at hr
    rcases hq with hq | hq
    · exact (policyRefusal_none hr.1.2 hq).2 (.inl rfl)
    · exact (policyRefusal_none hr.1.2 hq).2 (.inr rfl)

end ToolExecutor

/-! ## Two executors -/

def quietExternal : External where
  capabilities := fun _ => none
  toLowercase := id
  preHookEnds := fun _ => .exited 0 ""
  postHookEnds := fun _ => .exited 0 ""
  routeTool := fun toolUse _ => ⟨toolUse.id,"done",false⟩

def removal : ToolUse := ⟨"t1","execute_command",.object [("command",.string "rm -rf build")]⟩

/-- The policy engine asks about every tool and the user at the channel agrees. -/
def askedExecutor : ToolExecutor where
  registry := fun _ => some ⟨"runs a command",true⟩
  policyEngine := some (fun _ => .requireApproval)
  approvalTx := some (fun _ => .ok .approve)
  permissions := some { deny := ["Bash(sudo:*)"] }
  hooks := some { preToolUse := [{ matcher := some "Bash", hooks := [{ command := "true" }] }] }

theorem askedExecutor_admitted :
    askedExecutor.Due quietExternal removal {} ∧
      (askedExecutor.Admitted quietExternal removal {}
        (askedExecutor.Due quietExternal removal {}) ∧
        (askedExecutor.PolicyAsks quietExternal removal {} →
          askedExecutor.permissionMode = .auto)) :=
  ⟨⟨rfl,.inr ⟨by decide,.inr ⟨.inl rfl,_,rfl,rfl⟩⟩⟩,ToolExecutor.execute_admitted (by decide)⟩

/-- An ask rule for the tool and no approval channel. -/
def channelless : ToolExecutor where
  registry := fun _ => some ⟨"runs a command",true⟩
  permissions := some { ask := ["Bash(rm:*)"] }

/-- The tool is reached and nobody was asked. -/
theorem channelless_unasked :
    ¬ ∀ (self : ToolExecutor) (ext : External) (toolUse : ToolUse) (context : ToolContext),
      (self.execute ext toolUse context).routed = true →
      self.Admitted ext toolUse context (self.PolicyAsks ext toolUse context ∨
        self.RelayAsks toolUse ∨ self.AskRuleMatches toolUse) := by
  intro h
  have hm : channelless.AskRuleMatches removal :=
    ⟨_,rfl,"Bash(rm:*)",List.mem_singleton.mpr rfl,by decide⟩
  obtain ⟨-,-,-,-,-,-,happ⟩ := h channelless quietExternal removal {} (by decide)
  obtain ⟨answer,ha,-⟩ := happ (.inr (.inr hm))
  have hn : (channelless.execute quietExternal removal {}).answer.isNone = true := by decide
  rw [Option.mem_def.mp ha] at hn
  cases hn

end Rullama.Tools
