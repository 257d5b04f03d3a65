import Mathlib.Algebra.BigOperators.Group.List.Basic
import Rullama.Numbers.Extended
import Rullama.Time.Calendar
import Rullama.Utils.CostTracker

/-! # Usage events and budgets

Every call is kept as an event under the instant of the clock, and each call throws away the events
that are thirty days old. The budgets are for the local day and the local month, whose first
instant is taken from the date as if its midnight were one of UTC.
-/
namespace Rullama.Utils

open Rullama.Numbers Rullama.Time

structure UsageEvent where
  timestamp : ℤ
  provider : String
  model : String
  inputTokens : UInt32
  outputTokens : UInt32
  costUsd : ℚ
  sessionId : Option String

structure UsageStats where
  totalCostUsd : ℚ := 0
  totalInputTokens : ℕ := 0
  totalOutputTokens : ℕ := 0
  totalCalls : ℕ := 0
  byModel : Finmap (fun _ : String => ℚ) := ∅
  byProvider : Finmap (fun _ : String => ℚ) := ∅

/-- `entry(name).or_insert(0.0) += cost`. -/
def addTo (costs : Finmap (fun _ : String => ℚ)) (name : String) (cost : ℚ) :
    Finmap (fun _ : String => ℚ) :=
  costs.insert name ((costs.lookup name).getD 0 + cost)

def UsageStats.addEvent (stats : UsageStats) (event : UsageEvent) : UsageStats where
  totalCostUsd := stats.totalCostUsd + event.costUsd
  totalInputTokens := stats.totalInputTokens + event.inputTokens.toNat
  totalOutputTokens := stats.totalOutputTokens + event.outputTokens.toNat
  totalCalls := stats.totalCalls + 1
  byModel := addTo stats.byModel event.model event.costUsd
  byProvider := addTo stats.byProvider event.provider event.costUsd

structure BudgetConfig where
  dailyLimitUsd : Option Extended := none
  monthlyLimitUsd : Option Extended := none
  warningThreshold : Extended := .fin (8 / 10)

inductive BudgetStatus where
  | ok
  | warning (usedPct : Extended) (limitType : String)
  | exceeded (usedPct : Extended) (limitType : String)

structure CostTracker where
  events : List UsageEvent := []
  pricing : Pricing := defaultModelPricing
  budget : BudgetConfig := {}
  currentSession : Option String := none

/-- A call of `track_usage` with what the clock shows for the event and before old events go. -/
structure TrackUsage where
  provider : String
  model : String
  inputTokens : UInt32
  outputTokens : UInt32
  stampedAt : ℤ
  prunedAt : ℤ

inductive TimePeriod where
  | today
  | thisWeek
  | thisMonth
  | last30Days
  | allTime

/-- What the budgets are kept with. -/
inductive Operation where
  | setSession (sessionId : String)
  | setBudget (config : BudgetConfig)
  | addPricing (model : String) (pricing : ModelPricing)
  | trackUsage (call : TrackUsage)

def days (n : ℤ) : ℤ := n * dayLength

/-- What is pushed for a call. -/
def CostTracker.eventOf (tracker : CostTracker) (call : TrackUsage) : UsageEvent where
  timestamp := call.stampedAt
  provider := call.provider
  model := call.model
  inputTokens := call.inputTokens
  outputTokens := call.outputTokens
  costUsd := calculateCost tracker.pricing call.model call.inputTokens call.outputTokens
  sessionId := tracker.currentSession

namespace CostTracker

def trackUsage (tracker : CostTracker) (call : TrackUsage) : CostTracker :=
  { tracker with
    events := (tracker.events ++ [tracker.eventOf call]).filter
      (fun e => call.prunedAt - days 30 < e.timestamp) }

def apply (tracker : CostTracker) : Operation → CostTracker
  | .setSession sessionId => { tracker with currentSession := some sessionId }
  | .setBudget config => { tracker with budget := config }
  | .addPricing model pricing => { tracker with pricing := tracker.pricing.insert model pricing }
  | .trackUsage call => tracker.trackUsage call

def run (tracker : CostTracker) (operations : List Operation) : CostTracker :=
  operations.foldl apply tracker

end CostTracker

/-- The first instant of a period; the local date's midnight is read as UTC. No event is earlier
than the first instant of all. -/
def cutoff (offset : UtcOffset) (now : ℤ) : TimePeriod → Option ℤ
  | .today => some (midnight (offset.localDay now))
  | .thisWeek => some (midnight (offset.localDay (now - days (weekday (offset.localDay now)))))
  | .thisMonth => some (midnight (monthStart (offset.localMonth now)))
  | .last30Days => some (now - days 30)
  | .allTime => none

namespace CostTracker

/-- The events that go into the statistics of a period. -/
def counted (tracker : CostTracker) (offset : UtcOffset) (now : ℤ) (period : TimePeriod) :
    List UsageEvent :=
  tracker.events.filter (fun event => (cutoff offset now period).all (· ≤ event.timestamp))

def getStats (tracker : CostTracker) (offset : UtcOffset) (now : ℤ) (period : TimePeriod) :
    UsageStats :=
  (tracker.counted offset now period).foldl .addEvent {}

end CostTracker

/-- The verdict of one limit, if there is one. -/
def limitStatus (limit : Option Extended) (warningThreshold : Extended) (total : ℚ)
    (limitType : String) : Option BudgetStatus :=
  limit.bind fun limit =>
    let usedPct := (Extended.fin total).div limit
    if Extended.le 1 usedPct then some (.exceeded usedPct limitType)
    else if warningThreshold.le usedPct then some (.warning usedPct limitType)
    else none

/-- The clock is read for each of the two periods. -/
def CostTracker.checkBudget (tracker : CostTracker) (offset : UtcOffset) (now now' : ℤ) :
    BudgetStatus :=
  let todayStats := tracker.getStats offset now .today
  let monthStats := tracker.getStats offset now' .thisMonth
  let config := tracker.budget
  ((limitStatus config.dailyLimitUsd config.warningThreshold todayStats.totalCostUsd "daily").or
    (limitStatus config.monthlyLimitUsd config.warningThreshold monthStats.totalCostUsd
      "monthly")).getD .ok

/-! ## What is stored -/

/-- The event is not yet thirty days old when a call throws old ones away. -/
def keeps (timestamp : ℤ) : Operation → Bool
  | .trackUsage call => call.prunedAt - days 30 < timestamp
  | _ => true

/-- A tracked event with the operations from its own call on. -/
abbrev LogEntry := UsageEvent × List Operation

def LogEntry.survives (entry : LogEntry) : Bool := entry.2.all (keeps entry.1.timestamp)

/-- The events tracked by the operations. -/
def CostTracker.trackLog (tracker : CostTracker) : List Operation → List LogEntry
  | [] => []
  | .trackUsage call :: operations =>
    (tracker.eventOf call,.trackUsage call :: operations) ::
      (tracker.trackUsage call).trackLog operations
  | operation :: operations => (tracker.apply operation).trackLog operations

theorem CostTracker.run_events (operations : List Operation) (tracker : CostTracker) :
    (tracker.run operations).events =
      tracker.events.filter (fun e => operations.all (keeps e.timestamp)) ++
        ((tracker.trackLog operations).filter LogEntry.survives).map Prod.fst := by
  induction operations generalizing tracker with
  | nil => simp [run,trackLog]
  | cons operation operations ih =>
    have hrun : tracker.run (operation :: operations) =
        (tracker.apply operation).run operations := rfl
    rw [hrun,ih]
    cases operation with
    | setSession sessionId => simp [apply,trackLog,keeps]
    | setBudget config => simp [apply,trackLog,keeps]
    | addPricing model pricing => simp [apply,trackLog,keeps]
    | trackUsage call =>
      have hold : (tracker.apply (.trackUsage call)).events.filter
            (fun e => operations.all (keeps e.timestamp)) =
          (tracker.events ++ [tracker.eventOf call]).filter
            (fun e => (Operation.trackUsage call :: operations).all (keeps e.timestamp)) := by
        simp only [apply,CostTracker.trackUsage,List.filter_filter,List.all_cons,keeps,
          Bool.and_comm]
      rw [hold,List.filter_append,List.append_assoc]
      congr 1
      have hnew : [tracker.eventOf call].filter
            (fun e => (Operation.trackUsage call :: operations).all (keeps e.timestamp)) =
          if LogEntry.survives (tracker.eventOf call,.trackUsage call :: operations) then
            [tracker.eventOf call] else [] := by
        rw [List.filter_cons,List.filter_nil]
        rfl
      rw [hnew,trackLog]
      by_cases hs : LogEntry.survives (tracker.eventOf call,.trackUsage call :: operations)
      · rw [if_pos hs,List.filter_cons_of_pos hs]
        rfl
      · rw [if_neg hs,List.filter_cons_of_neg hs]
        rfl

/-- Marked entries are those that a test of their first part picks only where the mark and the
test agree. -/
theorem filter_map_fst_eq_iff {α β : Type} (l : List (α × β)) (f : α × β → Bool) (q : α → Bool) :
    (l.filter f).map Prod.fst = (l.map Prod.fst).filter q ↔ ∀ x ∈ l, f x = q x.1 := by
  have hfilter : (l.map Prod.fst).filter q = (l.filter (fun x => q x.1)).map Prod.fst :=
    List.filter_map
  constructor
  · intro h
    have hpass : ∀ x ∈ l, f x = true → q x.1 = true := by
      intro x hx hf
      have hmem : x.1 ∈ (l.filter f).map Prod.fst :=
        List.mem_map_of_mem (List.mem_filter.mpr ⟨hx,hf⟩)
      rw [h] at hmem
      exact (List.mem_filter.mp hmem).2
    have hsub : (l.filter f).Sublist (l.filter (fun x => q x.1)) := by
      have htwice : (l.filter (fun x => q x.1)).filter f = l.filter f := by
        rw [List.filter_filter]
        apply List.filter_congr
        intro x hx
        cases hf : f x with
        | true => rw [hpass x hx hf]; rfl
        | false => rfl
      rw [← htwice]
      exact List.filter_sublist
    have hlength : (l.filter f).length = (l.filter (fun x => q x.1)).length := by
      rw [hfilter] at h
      simpa only [List.length_map] using congrArg List.length h
    have heq := hsub.eq_of_length hlength
    intro x hx
    apply Bool.eq_iff_iff.mpr
    refine ⟨hpass x hx,fun hq => ?_⟩
    have hmem : x ∈ l.filter f := heq ▸ List.mem_filter.mpr ⟨hx,hq⟩
    exact (List.mem_filter.mp hmem).2
  · intro h
    rw [hfilter,List.filter_congr h]

/-! ## When the periods are the local ones -/

/-- The instants between two, in either order. -/
def Between (a b t : ℤ) : Prop := a ≤ t ∧ t < b ∨ b ≤ t ∧ t < a

/-- A kept event is counted exactly where it is of the period, if it lies outside the time by
which the cutoff is wrong and is of no later period. -/
theorem counts_iff {start : ℤ → ℤ} (hlong : ∀ i, start i + dayLength ≤ start (i+1))
    (offset : UtcOffset) {i j t : ℤ} (hmono : StrictMono start)
    (hj : InPeriod start j (offset.localTime t)) (kept : Prop) :
    (kept ∧ start i ≤ t ↔ j = i) ↔
      (j = i → kept) ∧ (kept → ¬ Between (start i) (start i - offset.seconds*10^9) t) ∧
        (kept → j ≤ i) := by
  have hi := hlong i
  have hlower := offset.lower
  have hupper := offset.upper
  unfold InPeriod UtcOffset.localTime at hj
  unfold dayLength at hi
  rcases lt_trichotomy j i with h | h | h
  · have hnext : start (j+1) ≤ start i := hmono.monotone (by omega)
    have hbetween : Between (start i) (start i - offset.seconds*10^9) t ↔ start i ≤ t := by
      unfold Between
      omega
    simp only [hbetween,h.ne,h.le,false_implies,implies_true,true_and,and_true,iff_false,not_and]
  · subst h
    have hbetween : Between (start j) (start j - offset.seconds*10^9) t ↔ ¬ start j ≤ t := by
      unfold Between
      omega
    simp only [hbetween,not_not,le_refl,true_implies,implies_true,and_true,iff_true]
    exact ⟨fun h => ⟨h.1,fun _ => h.2⟩,fun h => ⟨h.1,h.2 h.1⟩⟩
  · have hnext : start (i+1) ≤ start j := hmono.monotone (by omega)
    have hcounted : start i ≤ t := by omega
    have hbetween : ¬ Between (start i) (start i - offset.seconds*10^9) t := by
      unfold Between
      omega
    simp only [hbetween,hcounted,h.ne',h.not_ge,false_implies,true_and,and_true,iff_false,
      not_false_iff,implies_true]

def CostTracker.new : CostTracker := {}

/-- The events tracked by the operations since the start. -/
def tracked (operations : List Operation) : List UsageEvent :=
  (CostTracker.new.trackLog operations).map Prod.fst

/-- The tracked events of the current local date. -/
def trackedToday (offset : UtcOffset) (operations : List Operation) (now : ℤ) : List UsageEvent :=
  (tracked operations).filter
    (fun event => offset.localDay event.timestamp = offset.localDay now)

/-- The tracked events of the current local month. -/
def trackedThisMonth (offset : UtcOffset) (operations : List Operation) (now : ℤ) :
    List UsageEvent :=
  (tracked operations).filter
    (fun event => offset.localMonth event.timestamp = offset.localMonth now)

def cost (events : List UsageEvent) : ℚ := (events.map UsageEvent.costUsd).sum

/-- The figures are made of the events of the local day and of the local month and of no other. -/
structure CountsExactly (offset : UtcOffset) (operations : List Operation) (now now' : ℤ) :
    Prop where
  today : (CostTracker.new.run operations).counted offset now .today =
    trackedToday offset operations now
  thisMonth : (CostTracker.new.run operations).counted offset now' .thisMonth =
    trackedThisMonth offset operations now'
  todayCost : ((CostTracker.new.run operations).getStats offset now .today).totalCostUsd =
    cost (trackedToday offset operations now)
  thisMonthCost :
    ((CostTracker.new.run operations).getStats offset now' .thisMonth).totalCostUsd =
      cost (trackedThisMonth offset operations now')

/-- No event of the two periods has been thrown away, and none that is left lies between the first
instant of a period and its cutoff or after the period. -/
structure Undisturbed (offset : UtcOffset) (operations : List Operation) (now now' : ℤ) :
    Prop where
  kept : ∀ entry ∈ CostTracker.new.trackLog operations,
    offset.localDay entry.1.timestamp = offset.localDay now ∨
      offset.localMonth entry.1.timestamp = offset.localMonth now' → entry.survives
  day : ∀ entry ∈ CostTracker.new.trackLog operations, entry.survives →
    ¬ Between (midnight (offset.localDay now))
        (midnight (offset.localDay now) - offset.seconds*10^9) entry.1.timestamp ∧
      offset.localDay entry.1.timestamp ≤ offset.localDay now
  month : ∀ entry ∈ CostTracker.new.trackLog operations, entry.survives →
    ¬ Between (midnight (monthStart (offset.localMonth now')))
        (midnight (monthStart (offset.localMonth now')) - offset.seconds*10^9)
        entry.1.timestamp ∧
      offset.localMonth entry.1.timestamp ≤ offset.localMonth now'

/-- What is counted, in terms of what was tracked. -/
theorem counted_run (offset : UtcOffset) (operations : List Operation) (now : ℤ)
    (period : TimePeriod) :
    (CostTracker.new.run operations).counted offset now period =
      ((CostTracker.new.trackLog operations).filter (fun entry =>
        (cutoff offset now period).all (· ≤ entry.1.timestamp) && entry.survives)).map
          Prod.fst := by
  unfold CostTracker.counted
  rw [CostTracker.run_events]
  simp only [CostTracker.new,List.filter_nil,List.nil_append,List.filter_map,List.filter_filter,
    Function.comp_def]

theorem counted_eq_iff (offset : UtcOffset) (operations : List Operation) (now : ℤ)
    (period : TimePeriod) (index : ℤ → ℤ) (i : ℤ) :
    (CostTracker.new.run operations).counted offset now period =
        (tracked operations).filter (fun event => index event.timestamp = i) ↔
      ∀ entry ∈ CostTracker.new.trackLog operations,
        (entry.survives ∧ (cutoff offset now period).all (· ≤ entry.1.timestamp) ↔
          index entry.1.timestamp = i) := by
  rw [counted_run]
  unfold tracked
  rw [filter_map_fst_eq_iff]
  refine forall₂_congr fun entry _ => ?_
  rw [Bool.eq_iff_iff,Bool.and_eq_true,decide_eq_true_iff,and_comm]

/-- A period is counted exactly just where none of its events has been thrown away, and none that
is left lies where the cutoff is wrong or is of a later period. -/
theorem counted_period_iff {start index : ℤ → ℤ} (hlong : ∀ i, start i + dayLength ≤ start (i+1))
    (hmono : StrictMono start) (offset : UtcOffset)
    (hindex : ∀ t, InPeriod start (index t) (offset.localTime t)) (operations : List Operation)
    (now : ℤ) {period : TimePeriod} {i : ℤ} (hcutoff : cutoff offset now period = some (start i)) :
    (CostTracker.new.run operations).counted offset now period =
        (tracked operations).filter (fun event => index event.timestamp = i) ↔
      ∀ entry ∈ CostTracker.new.trackLog operations,
        (index entry.1.timestamp = i → entry.survives) ∧
        (entry.survives →
          ¬ Between (start i) (start i - offset.seconds*10^9) entry.1.timestamp) ∧
        (entry.survives → index entry.1.timestamp ≤ i) := by
  rw [counted_eq_iff,hcutoff]
  refine forall₂_congr fun entry _ => ?_
  rw [Option.all_some,decide_eq_true_iff]
  exact counts_iff hlong offset hmono (hindex entry.1.timestamp) (entry.survives = true)

/-- The sum of the figures is that of the events that are counted. -/
theorem getStats_totalCostUsd (tracker : CostTracker) (offset : UtcOffset) (now : ℤ)
    (period : TimePeriod) :
    (tracker.getStats offset now period).totalCostUsd =
      cost (tracker.counted offset now period) := by
  have hfold (events : List UsageEvent) (stats : UsageStats) :
      (events.foldl .addEvent stats).totalCostUsd = stats.totalCostUsd + cost events := by
    induction events generalizing stats with
    | nil => exact (add_zero _).symm
    | cons event events ih =>
      rw [List.foldl_cons,ih,cost,cost,List.map_cons,List.sum_cons,← add_assoc]
      rfl
  unfold CostTracker.getStats
  rw [hfold]
  exact zero_add _

/-- The figures are exact just where nothing comes between the periods and their events. -/
theorem countsExactly_iff (offset : UtcOffset) (operations : List Operation) (now now' : ℤ) :
    CountsExactly offset operations now now' ↔ Undisturbed offset operations now now' := by
  have hday := counted_period_iff (fun d => (midnight_succ d).ge) midnight_strictMono offset
    offset.localDay_spec operations now (i := offset.localDay now)
    (rfl : cutoff offset now .today = _)
  have hmonth := counted_period_iff monthMidnight_succ
    (midnight_strictMono.comp monthStart_strictMono) offset offset.localMonth_spec operations
    now' (i := offset.localMonth now') (rfl : cutoff offset now' .thisMonth = _)
  constructor
  · rintro ⟨htoday,hthisMonth,-,-⟩
    have hd := hday.mp htoday
    have hm := hmonth.mp hthisMonth
    refine ⟨fun entry hentry h => ?_,fun entry hentry h => ?_,fun entry hentry h => ?_⟩
    · rcases h with h | h
      · exact (hd entry hentry).1 h
      · exact (hm entry hentry).1 h
    · exact ⟨(hd entry hentry).2.1 h,(hd entry hentry).2.2 h⟩
    · exact ⟨(hm entry hentry).2.1 h,(hm entry hentry).2.2 h⟩
  · rintro ⟨hkept,hd,hm⟩
    have htoday := hday.mpr fun entry hentry =>
      ⟨fun h => hkept entry hentry (.inl h),fun h => (hd entry hentry h).1,
        fun h => (hd entry hentry h).2⟩
    have hthisMonth := hmonth.mpr fun entry hentry =>
      ⟨fun h => hkept entry hentry (.inr h),fun h => (hm entry hentry h).1,
        fun h => (hm entry hentry h).2⟩
    refine ⟨htoday,hthisMonth,?_,?_⟩
    · rw [getStats_totalCostUsd,htoday]
      rfl
    · rw [getStats_totalCostUsd,hthisMonth]
      rfl

/-- Where they are, the verdict is that of the true figures. -/
theorem CountsExactly.checkBudget {offset : UtcOffset} {operations : List Operation}
    {now now' : ℤ} (h : CountsExactly offset operations now now') :
    let tracker := CostTracker.new.run operations
    tracker.checkBudget offset now now' =
      ((limitStatus tracker.budget.dailyLimitUsd tracker.budget.warningThreshold
        (cost (trackedToday offset operations now)) "daily").or
      (limitStatus tracker.budget.monthlyLimitUsd tracker.budget.warningThreshold
        (cost (trackedThisMonth offset operations now')) "monthly")).getD .ok := by
  intro tracker
  unfold CostTracker.checkBudget
  dsimp only [tracker]
  rw [h.todayCost,h.thisMonthCost]

/-- Noon of the first of January 2026. -/
def newYear : ℤ := midnight 20454 + 43200 * 10^9

/-- A call on the first and one on the last day of January. -/
def januaryCalls : List Operation :=
  [.trackUsage ⟨"openai","gpt-4",1000,1000,newYear,newYear⟩,
    .trackUsage ⟨"openai","gpt-4",1000,1000,newYear + days 30,newYear + days 30⟩]

/-- On the 31st the event of the first is missing. -/
theorem january_not_exact :
    ¬ CountsExactly ⟨0,by decide,by decide⟩ januaryCalls (newYear + days 30)
      (newYear + days 30) := by
  intro h
  have hlength := congrArg List.length h.thisMonth
  revert hlength
  decide +kernel

end Rullama.Utils
