import Mathlib.Data.Finmap
import Mathlib.Data.Finset.Max
import Mathlib.Data.Rat.Defs
import Rullama.Tools.Json

/-! # The cost of a call

The price of a model is looked up under its name, else under the first key of the table that has a
part in common with it. The table is a hash map, so which key is the first is left to the order in
which the map is gone through.
-/
namespace Rullama.Utils

open Rullama.Tools (contains)

/-- Prices per 1000 tokens in USD. -/
structure ModelPricing where
  inputCostPer1k : ℚ
  outputCostPer1k : ℚ
  deriving DecidableEq

def ModelPricing.calculateCost (p : ModelPricing) (inputTokens outputTokens : UInt32) : ℚ :=
  inputTokens.toNat / 1000 * p.inputCostPer1k + outputTokens.toNat / 1000 * p.outputCostPer1k

/-- A `HashMap` of prices in one order in which it can be gone through. -/
abbrev Pricing := AList (fun _ : String => ModelPricing)

/-- The `HashMap` itself. -/
abbrev PricingTable := Finmap (fun _ : String => ModelPricing)

def defaultModelPricing : Pricing :=
  [("claude-3-opus",⟨15 / 1000,75 / 1000⟩),("claude-3-sonnet",⟨3 / 1000,15 / 1000⟩),
    ("claude-3-haiku",⟨25 / 100000,125 / 100000⟩),("claude-3.5-sonnet",⟨3 / 1000,15 / 1000⟩),
    ("claude-opus-4",⟨15 / 1000,75 / 1000⟩),
    ("claude-haiku-4-5-20251001",⟨25 / 100000,125 / 100000⟩),
    ("claude-sonnet-4-5-20250929",⟨3 / 1000,15 / 1000⟩),
    ("claude-opus-4-1-20250805",⟨15 / 1000,75 / 1000⟩),("gpt-4",⟨3 / 100,6 / 100⟩),
    ("gpt-4-turbo",⟨1 / 100,3 / 100⟩),("gpt-3.5-turbo",⟨5 / 10000,15 / 10000⟩)].foldl
      (fun pricing entry => pricing.insert entry.1 entry.2) ∅

/-- Model names often have versions and suffixes. -/
def partialMatch (model modelName : String) : Bool :=
  contains model modelName || contains modelName model

def fallback : ModelPricing := ⟨1 / 100,3 / 100⟩

def calculateCost (pricing : Pricing) (model : String) (inputTokens outputTokens : UInt32) : ℚ :=
  match pricing.lookup model with
  | some p => p.calculateCost inputTokens outputTokens
  | none =>
    match pricing.entries.find? (fun entry => partialMatch model entry.1) with
    | some entry => entry.2.calculateCost inputTokens outputTokens
    | none => fallback.calculateCost inputTokens outputTokens

/-! ## The price of the most specific key -/

/-- No key that matches is longer. -/
def MostSpecific (table : PricingTable) (model modelName : String) : Prop :=
  partialMatch model modelName ∧
    ∀ other ∈ table, partialMatch model other → other.length ≤ modelName.length

/-- The price of an exact match, otherwise of the most specific key, otherwise the fallback. -/
def PriceOfTable (table : PricingTable) (model : String) (inputTokens outputTokens : UInt32)
    (cost : ℚ) : Prop :=
  match table.lookup model with
  | some p => cost = p.calculateCost inputTokens outputTokens
  | none =>
    (∀ modelName p, table.lookup modelName = some p → MostSpecific table model modelName →
      cost = p.calculateCost inputTokens outputTokens) ∧
    ((∀ modelName ∈ table, ¬ partialMatch model modelName) →
      cost = fallback.calculateCost inputTokens outputTokens)

/-- All the keys that match ask the same for these tokens. -/
def MatchesAgree (table : PricingTable) (model : String) (inputTokens outputTokens : UInt32) :
    Prop :=
  ∀ a p b q, table.lookup a = some p → table.lookup b = some q → partialMatch model a →
    partialMatch model b →
    p.calculateCost inputTokens outputTokens = q.calculateCost inputTokens outputTokens

/-- One price, whatever the order. -/
def PricedAlike (table : PricingTable) (model : String) (inputTokens outputTokens : UInt32) :
    Prop :=
  ∃ cost, (∀ pricing : Pricing, pricing.toFinmap = table →
    calculateCost pricing model inputTokens outputTokens = cost) ∧
    PriceOfTable table model inputTokens outputTokens cost

/-! ## The first key that matches -/

theorem lookup_eq_some_iff {pricing : Pricing} {table : PricingTable} {modelName : String}
    {p : ModelPricing} (h : pricing.toFinmap = table) :
    table.lookup modelName = some p ↔ ⟨modelName,p⟩ ∈ pricing.entries := by
  rw [← h,Finmap.lookup_toFinmap]
  exact List.mem_dlookup_iff pricing.nodupKeys

/-- Without an exact match the price is that of some key that matches, or there is none. -/
theorem calculateCost_cases {pricing : Pricing} {table : PricingTable} {model : String}
    (h : pricing.toFinmap = table) (hnone : table.lookup model = none)
    (inputTokens outputTokens : UInt32) :
    (∃ modelName p, table.lookup modelName = some p ∧ partialMatch model modelName ∧
      calculateCost pricing model inputTokens outputTokens
        = p.calculateCost inputTokens outputTokens) ∨
    ((∀ modelName ∈ table, ¬ partialMatch model modelName) ∧
      calculateCost pricing model inputTokens outputTokens
        = fallback.calculateCost inputTokens outputTokens) := by
  have hlookup : pricing.lookup model = none := by rw [← hnone,← h,Finmap.lookup_toFinmap]
  unfold calculateCost
  rw [hlookup]
  cases hfind : pricing.entries.find? (fun entry => partialMatch model entry.1) with
  | some entry =>
    obtain ⟨modelName,p⟩ := entry
    have hmatch := List.find?_some hfind
    exact .inl ⟨modelName,p,(lookup_eq_some_iff h).mpr (List.mem_of_find?_eq_some hfind),
      hmatch,rfl⟩
  | none =>
    refine .inr ⟨fun modelName hmem hmatch => ?_,rfl⟩
    obtain ⟨p,hp⟩ := Finmap.mem_iff.mp hmem
    exact List.find?_eq_none.mp hfind ⟨modelName,p⟩ ((lookup_eq_some_iff h).mp hp) hmatch

/-- Any key that matches is the first in some order. -/
theorem exists_first {table : PricingTable} {model modelName : String} {p : ModelPricing}
    (hnone : table.lookup model = none) (hp : table.lookup modelName = some p)
    (hmatch : partialMatch model modelName) (inputTokens outputTokens : UInt32) :
    ∃ pricing : Pricing, pricing.toFinmap = table ∧
      calculateCost pricing model inputTokens outputTokens
        = p.calculateCost inputTokens outputTokens := by
  induction table using Finmap.induction_on with
  | _ pricing =>
    have hsame : (pricing.insert modelName p).toFinmap = pricing.toFinmap := by
      apply Finmap.ext_lookup
      intro name
      rw [Finmap.lookup_toFinmap]
      by_cases hname : name = modelName
      · subst hname
        rw [AList.lookup_insert,hp]
      · rw [AList.lookup_insert_ne hname,Finmap.lookup_toFinmap]
    refine ⟨pricing.insert modelName p,hsame,?_⟩
    have hlookup : (pricing.insert modelName p).lookup model = none := by
      rw [← hnone,← hsame,Finmap.lookup_toFinmap]
    unfold calculateCost
    rw [hlookup,AList.entries_insert]
    simp only [List.find?_cons_of_pos,hmatch]

/-- Among the keys that match one is the longest. -/
theorem exists_mostSpecific {table : PricingTable} {model modelName : String}
    (hmem : modelName ∈ table) (hmatch : partialMatch model modelName) :
    ∃ longest ∈ table, MostSpecific table model longest := by
  have hne : (table.keys.filter (fun name => partialMatch model name = true)).Nonempty :=
    ⟨modelName,Finset.mem_filter.mpr ⟨Finmap.mem_keys.mpr hmem,hmatch⟩⟩
  obtain ⟨longest,hlongest,hmax⟩ := Finset.exists_max_image _ String.length hne
  obtain ⟨hkey,hlong⟩ := Finset.mem_filter.mp hlongest
  exact ⟨longest,Finmap.mem_keys.mp hkey,hlong,fun other hother hmatches =>
    hmax other (Finset.mem_filter.mpr ⟨Finmap.mem_keys.mpr hother,hmatches⟩)⟩

/-- The table leaves at most one price. -/
theorem PriceOfTable.unique {table : PricingTable} {model : String}
    {inputTokens outputTokens : UInt32} {cost cost' : ℚ}
    (h : PriceOfTable table model inputTokens outputTokens cost)
    (h' : PriceOfTable table model inputTokens outputTokens cost') : cost = cost' := by
  unfold PriceOfTable at h h'
  cases hlookup : table.lookup model with
  | some p =>
    rw [hlookup] at h h'
    exact h.trans h'.symm
  | none =>
    rw [hlookup] at h h'
    by_cases hsome : ∃ modelName ∈ table, partialMatch model modelName
    · obtain ⟨modelName,hmem,hmatch⟩ := hsome
      obtain ⟨longest,hlongest,hmost⟩ := exists_mostSpecific hmem hmatch
      obtain ⟨p,hp⟩ := Finmap.mem_iff.mp hlongest
      exact (h.1 longest p hp hmost).trans (h'.1 longest p hp hmost).symm
    · have hall : ∀ modelName ∈ table, ¬ partialMatch model modelName :=
        fun modelName hmem hmatch => hsome ⟨modelName,hmem,hmatch⟩
      exact (h.2 hall).trans (h'.2 hall).symm

/-! ## When the order makes no difference -/

theorem pricedAlike_of_exact {table : PricingTable} {model : String} {p : ModelPricing}
    (hp : table.lookup model = some p) (inputTokens outputTokens : UInt32) :
    PricedAlike table model inputTokens outputTokens := by
  refine ⟨p.calculateCost inputTokens outputTokens,fun pricing h => ?_,?_⟩
  · unfold calculateCost
    rw [← Finmap.lookup_toFinmap,h,hp]
  · unfold PriceOfTable
    rw [hp]

/-- The matches agree where the price is the same in every order. -/
theorem matchesAgree_of_pricedAlike {table : PricingTable} {model : String}
    {inputTokens outputTokens : UInt32} (hnone : table.lookup model = none)
    (h : PricedAlike table model inputTokens outputTokens) :
    MatchesAgree table model inputTokens outputTokens := by
  obtain ⟨cost,hcost,-⟩ := h
  intro a p b q hp hq ha hb
  obtain ⟨order,horder,hprice⟩ := exists_first hnone hp ha inputTokens outputTokens
  obtain ⟨order',horder',hprice'⟩ := exists_first hnone hq hb inputTokens outputTokens
  rw [← hprice,hcost order horder,← hprice',hcost order' horder']

theorem pricedAlike_of_matchesAgree {table : PricingTable} {model : String}
    {inputTokens outputTokens : UInt32} (hnone : table.lookup model = none)
    (h : MatchesAgree table model inputTokens outputTokens) :
    PricedAlike table model inputTokens outputTokens := by
  unfold PricedAlike PriceOfTable
  rw [hnone]
  by_cases hsome : ∃ modelName ∈ table, partialMatch model modelName
  · obtain ⟨modelName,hmem,hmatch⟩ := hsome
    obtain ⟨p,hp⟩ := Finmap.mem_iff.mp hmem
    refine ⟨p.calculateCost inputTokens outputTokens,fun pricing hpricing => ?_,
      fun other q hq hother => h modelName p other q hp hq hmatch hother.1,
      fun hall => absurd hmatch (hall modelName hmem)⟩
    rcases calculateCost_cases hpricing hnone inputTokens outputTokens with
      ⟨other,q,hq,hother,hcost⟩ | ⟨hall,-⟩
    · rw [hcost]
      exact h other q modelName p hq hp hother hmatch
    · exact absurd hmatch (hall modelName hmem)
  · have hall : ∀ modelName ∈ table, ¬ partialMatch model modelName :=
      fun modelName hmem hmatch => hsome ⟨modelName,hmem,hmatch⟩
    refine ⟨fallback.calculateCost inputTokens outputTokens,fun pricing hpricing => ?_,
      fun other q hq hother => ?_,fun _ => rfl⟩
    · rcases calculateCost_cases hpricing hnone inputTokens outputTokens with
        ⟨other,q,hq,hother,-⟩ | ⟨-,hcost⟩
      · exact absurd hother (hall other (Finmap.mem_of_lookup_eq_some hq))
      · exact hcost
    · exact absurd hother.1 (hall other (Finmap.mem_of_lookup_eq_some hq))

/-- The price is the same in every order, and that of the most specific key, where the name is a
key or the keys that match agree. -/
theorem pricedAlike_iff (table : PricingTable) (model : String)
    (inputTokens outputTokens : UInt32) :
    PricedAlike table model inputTokens outputTokens ↔
      model ∈ table ∨ MatchesAgree table model inputTokens outputTokens := by
  cases hlookup : table.lookup model with
  | some p =>
    exact ⟨fun _ => .inl (Finmap.mem_of_lookup_eq_some hlookup),
      fun _ => pricedAlike_of_exact hlookup inputTokens outputTokens⟩
  | none =>
    constructor
    · exact fun h => .inr (matchesAgree_of_pricedAlike hlookup h)
    · rintro (hmem | h)
      · exact absurd hmem (Finmap.lookup_eq_none.mp hlookup)
      · exact pricedAlike_of_matchesAgree hlookup h

/-- A dated name of `gpt-4-turbo` is also one of `gpt-4`. -/
theorem gpt4Turbo_not_pricedAlike :
    ¬ PricedAlike defaultModelPricing.toFinmap "gpt-4-turbo-2024-04-09" 1000 1000 := by
  intro h
  have hagree := matchesAgree_of_pricedAlike (by decide +kernel) h
  exact absurd (hagree "gpt-4" ⟨3 / 100,6 / 100⟩ "gpt-4-turbo" ⟨1 / 100,3 / 100⟩
    (by decide +kernel) (by decide +kernel) (by decide +kernel) (by decide +kernel))
    (by decide +kernel)

end Rullama.Utils
