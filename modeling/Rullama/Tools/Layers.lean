import Mathlib.Data.Finmap
import Rullama.Tools.Hooks

/-! # Layers of settings

The settings files are merged in the order of their precedence: where a name has one value the
later layer wins, and the lists of rules and hooks are put one behind the other. What is asked of
the merged rules is answered by the strictest rule of any layer.
-/
namespace Rullama.Tools

/-- A `HashMap` of texts. -/
abbrev Table := Finmap (fun _ : String => String)

namespace Table

/-- The entries of a map have distinct names, so their order makes no difference. -/
theorem foldl_insert (them : AList (fun _ : String => String)) (me : Table) :
    them.entries.foldl (fun table entry => table.insert entry.1 entry.2) me =
      them.toFinmap ∪ me := by
  apply Finmap.ext_lookup
  intro name
  have hlookup (entries : List (Σ _ : String, String)) (hnodup : entries.NodupKeys)
      (table : Table) :
      (entries.foldl (fun table entry => table.insert entry.1 entry.2) table).lookup name =
        (entries.dlookup name).or (table.lookup name) := by
    induction entries generalizing table with
    | nil => rfl
    | cons entry entries ih =>
      obtain ⟨key,value⟩ := entry
      obtain ⟨hkey,hrest⟩ := List.nodupKeys_cons.mp hnodup
      rw [List.foldl_cons,ih hrest]
      by_cases hname : name = key
      · subst hname
        rw [List.dlookup_eq_none.mpr hkey,Finmap.lookup_insert,List.dlookup_cons_eq]
        rfl
      · rw [Finmap.lookup_insert_of_ne _ hname,List.dlookup_cons_ne _ _ hname]
  have hentries : them.entries.dlookup name = them.toFinmap.lookup name := rfl
  rw [hlookup _ them.nodupKeys,hentries]
  by_cases hmem : name ∈ them.toFinmap
  · obtain ⟨value,hvalue⟩ := Option.isSome_iff_exists.mp (Finmap.lookup_isSome.mpr hmem)
    rw [Finmap.lookup_union_left hmem,hvalue]
    rfl
  · rw [Finmap.lookup_union_right hmem,Finmap.lookup_eq_none.mpr hmem]
    rfl

/-- The loop that inserts every entry of the other map. -/
def insertAll (me them : Table) : Table :=
  them.liftOn (fun list => list.entries.foldl (fun table entry => table.insert entry.1 entry.2) me)
    (fun a b h => by rw [foldl_insert,foldl_insert,AList.toFinmap_eq.mpr h])

theorem insertAll_eq (me them : Table) : me.insertAll them = them ∪ me := by
  induction them using Finmap.induction_on with
  | _ list => exact foldl_insert list me

end Table

structure Hooks where
  preToolUse : List HookMatcher := []
  postToolUse : List HookMatcher := []
  userPromptSubmit : List HookMatcher := []
  stop : List HookMatcher := []

def Hooks.merge (me them : Hooks) : Hooks where
  preToolUse := me.preToolUse ++ them.preToolUse
  postToolUse := me.postToolUse ++ them.postToolUse
  userPromptSubmit := me.userPromptSubmit ++ them.userPromptSubmit
  stop := me.stop ++ them.stop

/-- From the name of an action to a key. -/
structure Keybindings where
  global : Table := ∅

def Keybindings.merge (me them : Keybindings) : Keybindings := ⟨me.global.insertAll them.global⟩

structure Settings where
  permissions : Option Permissions := none
  hooks : Option Hooks := none
  keybindings : Option Keybindings := none
  env : Table := ∅

/-- A part that only one layer has is taken from it. -/
def mergeSlot {α : Type} (merge : α → α → α) : Option α → Option α → Option α
  | some me, some them => some (merge me them)
  | none, some them => some them
  | slot, none => slot

namespace Settings

def merge (me other : Settings) : Settings where
  permissions := mergeSlot .merge me.permissions other.permissions
  hooks := mergeSlot .merge me.hooks other.hooks
  keybindings := mergeSlot .merge me.keybindings other.keybindings
  env := me.env.insertAll other.env

/-- What `decide` says of the rules, if there are any. -/
def decide (s : Settings) (toolName : String) (args : Value) : PermissionDecision :=
  (s.permissions.map (·.decide toolName args)).getD .unset

end Settings

def mergeAll (layers : List Settings) : Settings := layers.foldl .merge {}

structure SettingsManager where
  merged : Settings := {}
  sources : List String := []

/-- A file that is missing, empty or malformed is passed over. -/
def SettingsManager.loadFromPaths (readSettings : String → Except String (Option Settings))
    (paths : List String) : SettingsManager :=
  paths.foldl (fun manager path =>
    match readSettings path with
    | .ok (some s) => ⟨manager.merged.merge s,manager.sources ++ [path]⟩
    | .ok none => manager
    | .error _ => manager) {}

/-! ## Merging -/

theorem mergeSlot_assoc {α : Type} {merge : α → α → α}
    (h : ∀ a b c, merge (merge a b) c = merge a (merge b c)) (a b c : Option α) :
    mergeSlot merge (mergeSlot merge a b) c = mergeSlot merge a (mergeSlot merge b c) := by
  cases a with
  | none => cases b <;> cases c <;> rfl
  | some a =>
    cases b with
    | none => cases c <;> rfl
    | some b =>
      cases c with
      | none => rfl
      | some c => exact congrArg some (h a b c)

@[simp] theorem mergeSlot_none_left {α : Type} (merge : α → α → α) (a : Option α) :
    mergeSlot merge none a = a := by cases a <;> rfl

@[simp] theorem mergeSlot_none_right {α : Type} (merge : α → α → α) (a : Option α) :
    mergeSlot merge a none = a := by cases a <;> rfl

theorem Table.insertAll_assoc (a b c : Table) :
    (a.insertAll b).insertAll c = a.insertAll (b.insertAll c) := by
  simp only [Table.insertAll_eq,Finmap.union_assoc]

theorem Permissions.merge_assoc (a b c : Permissions) :
    (a.merge b).merge c = a.merge (b.merge c) := by
  simp only [Permissions.merge,List.append_assoc]

theorem Hooks.merge_assoc (a b c : Hooks) : (a.merge b).merge c = a.merge (b.merge c) := by
  simp only [Hooks.merge,List.append_assoc]

theorem Keybindings.merge_assoc (a b c : Keybindings) :
    (a.merge b).merge c = a.merge (b.merge c) := by
  simp only [Keybindings.merge,Table.insertAll_assoc]

theorem Settings.merge_assoc (a b c : Settings) :
    (a.merge b).merge c = a.merge (b.merge c) := by
  simp only [Settings.merge,mergeSlot_assoc Permissions.merge_assoc,
    mergeSlot_assoc Hooks.merge_assoc,mergeSlot_assoc Keybindings.merge_assoc,
    Table.insertAll_assoc]

theorem Settings.empty_merge (s : Settings) : ({} : Settings).merge s = s := by
  simp only [Settings.merge,mergeSlot_none_left,Table.insertAll_eq,Finmap.union_empty]

theorem Settings.merge_empty (s : Settings) : s.merge {} = s := by
  simp only [Settings.merge,mergeSlot_none_right,Table.insertAll_eq,Finmap.empty_union]

/-- The files that can be read are the layers. -/
theorem SettingsManager.merged_loadFromPaths
    (readSettings : String → Except String (Option Settings)) (paths : List String) :
    (loadFromPaths readSettings paths).merged =
      mergeAll (paths.filterMap (fun path => (readSettings path).toOption.join)) := by
  induction paths using List.reverseRecOn with
  | nil => rfl
  | append_singleton paths path ih =>
    rw [loadFromPaths,List.foldl_append,List.foldl_cons,List.foldl_nil,← loadFromPaths,
      List.filterMap_append,mergeAll,List.foldl_append,← mergeAll,← ih]
    cases hread : readSettings path with
    | error e => simp [hread,Except.toOption]
    | ok layer => cases layer <;> simp [hread,Except.toOption]

/-! ## Rules of the layers -/

inductive RuleKind where
  | allow
  | ask
  | deny
deriving DecidableEq

namespace RuleKind

def rules : RuleKind → Permissions → List String
  | allow, p => p.allow
  | ask, p => p.ask
  | deny, p => p.deny

def addTo : RuleKind → String → Permissions → Permissions
  | allow, rule, p => { p with allow := p.allow ++ [rule] }
  | ask, rule, p => { p with ask := p.ask ++ [rule] }
  | deny, rule, p => { p with deny := p.deny ++ [rule] }

def strictness : RuleKind → ℕ
  | allow => 1
  | ask => 2
  | deny => 3

end RuleKind

/-- The strictness of the rules that a decision follows, `0` if it follows none. -/
def PermissionDecision.strictness : PermissionDecision → ℕ
  | unset => 0
  | allow => RuleKind.allow.strictness
  | ask => RuleKind.ask.strictness
  | deny _ => RuleKind.deny.strictness

/-- A rule of the kind matches the call. -/
def Permissions.has (p : Permissions) (kind : RuleKind) (toolName : String) (args : Value) : Bool :=
  (kind.rules p).any (ruleMatches · toolName args)

namespace Settings

def has (s : Settings) (kind : RuleKind) (toolName : String) (args : Value) : Bool :=
  s.permissions.any (·.has kind toolName args)

/-- The layer with one more rule. -/
def addRule (s : Settings) (kind : RuleKind) (rule : String) : Settings :=
  { s with permissions := some (kind.addTo rule (s.permissions.getD {})) }

end Settings

variable {kind : RuleKind} {toolName : String} {args : Value} {layers : List Settings}

theorem Permissions.has_merge (p q : Permissions) :
    (p.merge q).has kind toolName args =
      (p.has kind toolName args || q.has kind toolName args) := by
  cases kind <;> exact List.any_append

theorem Settings.has_merge (a b : Settings) :
    (a.merge b).has kind toolName args =
      (a.has kind toolName args || b.has kind toolName args) := by
  simp only [Settings.has,Settings.merge]
  cases a.permissions with
  | none => cases b.permissions <;> rfl
  | some p =>
    cases b.permissions with
    | none => exact (Bool.or_false _).symm
    | some q => exact p.has_merge q

theorem has_mergeAll :
    (mergeAll layers).has kind toolName args = layers.any (·.has kind toolName args) := by
  induction layers using List.reverseRecOn with
  | nil => rfl
  | append_singleton layers layer ih =>
    rw [mergeAll,List.foldl_append,← mergeAll,List.foldl_cons,List.foldl_nil,Settings.has_merge,ih,
      List.any_append,List.any_cons,List.any_nil,Bool.or_false]

theorem Settings.has_addRule (s : Settings) (added : RuleKind) (rule : String) :
    (s.addRule added rule).has kind toolName args =
      (s.has kind toolName args || (added = kind && ruleMatches rule toolName args)) := by
  have hp (p : Permissions) : (added.addTo rule p).has kind toolName args =
      (p.has kind toolName args || (added = kind && ruleMatches rule toolName args)) := by
    cases added <;> cases kind <;> simp [Permissions.has,RuleKind.rules,RuleKind.addTo]
  simp only [Settings.has,addRule,Option.any_some,hp]
  cases s.permissions with
  | none =>
    have hnone : ({} : Permissions).has kind toolName args = false := by cases kind <;> rfl
    rw [Option.getD_none,hnone]
    rfl
  | some p => rfl

/-! ## Decisions -/

/-- The strictness of the strictest kind that has a matching rule. -/
def strictest (denies asks allows : Bool) : ℕ :=
  if denies then 3 else if asks then 2 else if allows then 1 else 0

theorem strictest_or (d k w d' k' w' : Bool) :
    strictest (d || d') (k || k') (w || w') = max (strictest d k w) (strictest d' k' w') := by
  revert d k w d' k' w'
  decide

theorem Settings.decide_eq (s : Settings) :
    (∃ reason, s.decide toolName args = .deny reason) ∧ s.has .deny toolName args = true ∨
      s.has .deny toolName args = false ∧ s.decide toolName args =
        if s.has .ask toolName args then .ask
        else if s.has .allow toolName args then .allow else .unset := by
  obtain ⟨permissions,hooks,keybindings,env⟩ := s
  cases permissions with
  | none => exact .inr ⟨rfl,rfl⟩
  | some p =>
    simp only [Settings.decide,Settings.has,Option.map_some,Option.getD_some,Option.any_some,
      Permissions.decide]
    cases hfind : p.deny.find? (ruleMatches · toolName args) with
    | none =>
      refine .inr ⟨?_,rfl⟩
      rw [Permissions.has,RuleKind.rules,List.any_eq_false]
      exact List.find?_eq_none.mp hfind
    | some rule =>
      refine .inl ⟨⟨_,rfl⟩,?_⟩
      rw [Permissions.has,RuleKind.rules,List.any_eq_true]
      have hrule := List.find?_some hfind
      exact ⟨rule,List.mem_of_find?_eq_some hfind,hrule⟩

theorem Settings.strictness_decide (s : Settings) : (s.decide toolName args).strictness =
    strictest (s.has .deny toolName args) (s.has .ask toolName args)
      (s.has .allow toolName args) := by
  rw [strictest]
  rcases s.decide_eq with ⟨⟨reason,hdecide⟩,hdeny⟩ | ⟨hdeny,hdecide⟩
  · rw [hdecide,hdeny]
    rfl
  · rw [hdecide,hdeny]
    cases s.has .ask toolName args with
    | true => rfl
    | false => cases s.has .allow toolName args <;> rfl

/-- A layer, wherever it stands, can only make the answer stricter. -/
theorem strictness_layer (before after : List Settings) (layer : Settings) :
    ((mergeAll (before ++ layer :: after)).decide toolName args).strictness =
      max ((mergeAll (before ++ after)).decide toolName args).strictness
        (layer.decide toolName args).strictness := by
  have hhas (kind : RuleKind) : (mergeAll (before ++ layer :: after)).has kind toolName args =
      ((mergeAll (before ++ after)).has kind toolName args || layer.has kind toolName args) := by
    rw [has_mergeAll,has_mergeAll,List.any_append,List.any_append,List.any_cons,
      Bool.or_comm (layer.has kind toolName args),Bool.or_assoc]
  simp only [Settings.strictness_decide,hhas,strictest_or]

theorem strictness_addRule (s : Settings) (rule : String) :
    ((s.addRule kind rule).decide toolName args).strictness =
      max (s.decide toolName args).strictness
        (if ruleMatches rule toolName args then kind.strictness else 0) := by
  simp only [Settings.strictness_decide,Settings.has_addRule,strictest_or]
  cases ruleMatches rule toolName args <;> cases kind <;> rfl

/-- A layer has a rule of the kind that matches the call. -/
def SomeLayer (kind : RuleKind) (layers : List Settings) (toolName : String) (args : Value) :
    Prop :=
  ∃ layer ∈ layers, ∃ p ∈ layer.permissions, ∃ rule ∈ kind.rules p,
    ruleMatches rule toolName args = true

theorem has_mergeAll_iff :
    (mergeAll layers).has kind toolName args = true ↔ SomeLayer kind layers toolName args := by
  rw [has_mergeAll,List.any_eq_true]
  simp only [SomeLayer,Settings.has,Permissions.has,Option.any_eq_true,List.any_eq_true]
  rfl

theorem decide_mergeAll_iff (layers : List Settings) (toolName : String) (args : Value) :
    ((∃ reason, (mergeAll layers).decide toolName args = .deny reason) ↔
      SomeLayer .deny layers toolName args) ∧
    ((mergeAll layers).decide toolName args = .ask ↔
      ¬SomeLayer .deny layers toolName args ∧ SomeLayer .ask layers toolName args) ∧
    ((mergeAll layers).decide toolName args = .allow ↔
      ¬SomeLayer .deny layers toolName args ∧ ¬SomeLayer .ask layers toolName args ∧
        SomeLayer .allow layers toolName args) := by
  simp only [← has_mergeAll_iff]
  rcases (mergeAll layers).decide_eq with ⟨⟨reason,hdecide⟩,hdeny⟩ | ⟨hdeny,hdecide⟩
  · rw [hdecide,hdeny]
    simp
  · rw [hdecide,hdeny]
    cases (mergeAll layers).has .ask toolName args with
    | true => simp
    | false => cases (mergeAll layers).has .allow toolName args <;> simp

/-- Merging is associative and the empty settings change nothing. The merged rules deny exactly
what a rule of some layer denies, ask about the rest of what one asks about, and allow the rest of
what one allows; and one more layer or rule gives an answer of the greater strictness, whatever
its place. -/
theorem layers_decide :
    (∀ a b c : Settings, (a.merge b).merge c = a.merge (b.merge c)) ∧
    (∀ s : Settings, ({} : Settings).merge s = s ∧ s.merge {} = s) ∧
    ∀ (toolName : String) (args : Value),
      (∀ layers : List Settings,
        ((∃ reason, (mergeAll layers).decide toolName args = .deny reason) ↔
          SomeLayer .deny layers toolName args) ∧
        ((mergeAll layers).decide toolName args = .ask ↔
          ¬SomeLayer .deny layers toolName args ∧ SomeLayer .ask layers toolName args) ∧
        ((mergeAll layers).decide toolName args = .allow ↔
          ¬SomeLayer .deny layers toolName args ∧ ¬SomeLayer .ask layers toolName args ∧
            SomeLayer .allow layers toolName args)) ∧
      ∀ (before after : List Settings) (layer : Settings),
        ((mergeAll (before ++ layer :: after)).decide toolName args).strictness =
          max ((mergeAll (before ++ after)).decide toolName args).strictness
            (layer.decide toolName args).strictness ∧
        ∀ (kind : RuleKind) (rule : String),
          ((mergeAll (before ++ layer.addRule kind rule :: after)).decide
              toolName args).strictness =
            max ((mergeAll (before ++ layer :: after)).decide toolName args).strictness
              (if ruleMatches rule toolName args then kind.strictness else 0) := by
  refine ⟨Settings.merge_assoc,fun s => ⟨s.empty_merge,s.merge_empty⟩,fun toolName args => ?_⟩
  refine ⟨fun layers => decide_mergeAll_iff layers toolName args,fun before after layer => ?_⟩
  refine ⟨strictness_layer before after layer,fun kind rule => ?_⟩
  rw [strictness_layer,strictness_layer,strictness_addRule,max_assoc]

end Rullama.Tools
