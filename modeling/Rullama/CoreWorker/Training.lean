import Rullama.CoreWorker.State

/-! # Fine-tuning and adapters

The handlers through which the model moves into a training session and back, and those
that change the adapter applied to it.
-/
namespace Rullama.CoreWorker

/-- The white space and line ends that `String.prototype.trim` strips. -/
def isJsSpace (c : Char) : Bool :=
  (0x9 ≤ c.toNat && c.toNat ≤ 0xD) || (0x2000 ≤ c.toNat && c.toNat ≤ 0x200A) ||
    [0x20, 0xA0, 0x1680, 0x2028, 0x2029, 0x202F, 0x205F, 0x3000, 0xFEFF].contains c.toNat

/-- `String(a.name ?? "").trim()`. -/
def trimmed (name : Option String) : String :=
  let cs := (name.getD "").toList.dropWhile isJsSpace
  String.ofList (cs.reverse.dropWhile isJsSpace).reverse

/-- The pattern `^[\w\-. ]+$`. -/
def isFileName (name : String) : Bool :=
  name ≠ "" && name.toList.all (fun c => c.isAlphanum || "_-. ".toList.contains c)

structure ProbeReport where
  ok : Bool
  estimatedBytes : ℕ
  reason : Option String
  deriving DecidableEq, Repr

def ProbeReport.estimatedMb (probe : ProbeReport) : ℕ :=
  (probe.estimatedBytes + 524288) / 1048576

def budgetBytes (isMobile : Bool) : ℕ := if isMobile then 3758096384 else 8589934592

/-- `ratio > 0.85`. -/
def ProbeReport.tight (probe : ProbeReport) (isMobile : Bool) : Prop :=
  85 * budgetBytes isMobile < 100 * probe.estimatedBytes

instance (probe : ProbeReport) (isMobile : Bool) : Decidable (probe.tight isMobile) :=
  inferInstanceAs (Decidable (_ < _))

def ProbeReport.rejected (probe : ProbeReport) : String :=
  s!"Training would need ~{probe.estimatedMb} MB GPU memory and this device rejected " ++
    "the allocation. Lower the rank, shorten max_seq_len, or drop FFN targets and try again. " ++
    "(GPU said: " ++ probe.reason.getD "unknown" ++ ")"

def ProbeReport.tooTight (probe : ProbeReport) (isMobile : Bool) : String :=
  let budget := budgetBytes isMobile
  let pct := (200 * probe.estimatedBytes + budget) / (2 * budget)
  let device := if isMobile then "iPhone" else "desktop"
  s!"Training config would use ~{probe.estimatedMb} MB ({pct}% of the {device} GPU budget). " ++
    "That's too close to the ceiling — the first backward step's transient buffers may push " ++
    "it over. Lower the rank, shorten max_seq_len, drop FFN targets, or enable " ++
    "\"Memory-tight\" mode and try again."

structure StartArgs where
  maxSeqLen : Option ℕ
  seqLen : Option ℕ
  totalSteps : ℕ
  deriving DecidableEq, Repr

/-- `probeFit(..)`, `model.clearAdapter()`, `model.shrinkKv(..)`, `new TrainingSession(..)` and
`setLrSchedule(..)`, with the platform the user agent names. -/
structure StartCalls where
  isMobile : Bool
  probe : Except String ProbeReport
  clears : Except String Unit
  shrinks : Except String Unit
  session : Except String SessionFacts
  schedule : Except String Unit

/-- The KV capacity of a training run. -/
def StartArgs.targetKv (args : StartArgs) : ℕ :=
  max (max 1 ((args.maxSeqLen.or args.seqLen).getD 32) + 1) 64

/-- The checks that `trainingSaveAdapterAndFinish` makes of its name. -/
def adapterFileName (name : Option String) : Except String String :=
  if trimmed name = "" then .error "trainingSaveAdapterAndFinish: 'name' required"
  else if isFileName (trimmed name) then .ok (trimmed name)
  else .error "trainingSaveAdapterAndFinish: 'name' must match [\\w\\-. ]+"

/-- `session.saveAdapterAndFinish()`, `writeAdapterBytes(..)` and the `shrinkKv` after it. -/
structure SaveCalls where
  saved : Except String Trained
  written : Except String ℕ
  shrinks : Except String Unit

namespace State

/-- `try { model.clearAdapter(); } catch`, for the model if there is one. -/
def tryClearAdapter (s : State) (clears : Except String Unit) : State :=
  match clears with
  | .ok _ => s.mapModel Engine.clearAdapter
  | .error _ => s

/-- An adapter left over from an earlier session is cleared before training. -/
def dropActive (s : State) (clears : Except String Unit) : State :=
  if s.activeAdapterName.isSome then
    { s.tryClearAdapter clears with activeAdapterName := none }.notify (.adapterChanged none none none)
  else s

def shrinkForTraining (s : State) (targetKv : ℕ) (shrinks : Except String Unit) : State :=
  match s.model, shrinks with
  | some m, .ok _ =>
    if 0 < m.maxContext ∧ targetKv < m.maxContext then
      { s.setModel (m.shrinkKv targetKv) with trainingOriginalKvContext := some m.maxContext }
    else { s with trainingOriginalKvContext := none }
  | _, _ => { s with trainingOriginalKvContext := none }

/-- Where the constructor throws the model is consumed all the same. -/
def startSession (s : State) (session : Except String SessionFacts) : State × Except String SessionFacts :=
  match session with
  | .error e => ({ s with model := none, loadedInfo := none }.notify .modelFreed,.error e)
  | .ok facts =>
    ({ s with trainingSession := s.model.map (TrainingSession.mk · facts), model := none },.ok facts)

def trainingStart (s : State) (args : StartArgs) (calls : StartCalls) : State × Reply :=
  if s.model.isNone then (s,.error "load a model before starting training")
  else if s.trainingSession.isSome then
    (s,.error "training already active — call trainingFinish() first")
  else
    s.orThrow calls.probe fun probe =>
    if probe.ok = false then (s,.error probe.rejected)
    else if probe.tight calls.isMobile then (s,.error (probe.tooTight calls.isMobile))
    else
      let s := (s.dropActive calls.clears).shrinkForTraining args.targetKv calls.shrinks
      let (s,session) := s.startSession calls.session
      s.orThrow session fun facts =>
      s.orThrow (if 0 < args.totalSteps then calls.schedule else .ok ()) fun _ =>
        (s.notify (.trainingStarted facts probe.estimatedBytes),
          .ok (.started facts probe.estimatedBytes))

/-- The chat's KV capacity again, if training took it away. A failure leaves the small cache. -/
def restoreKvContext (s : State) (shrinks : Except String Unit) : State :=
  match s.trainingOriginalKvContext, shrinks with
  | some original, .ok _ =>
    { s.mapModel (·.shrinkKv original) with trainingOriginalKvContext := none }
  | _, _ => { s with trainingOriginalKvContext := none }

def trainingSaveAdapterAndFinish (s : State) (name : Option String) (calls : SaveCalls) :
    State × Reply :=
  s.orThrow s.requireTraining fun session =>
  s.orThrow (adapterFileName name) fun name =>
  s.orThrow calls.saved fun trained =>
    -- the session goes before the file is written, the model comes back after it
    let s := { s with trainingSession := none }
    s.orThrow calls.written fun size =>
      let s := (s.setModel (session.takeModel trained)).kvInvalidate
      let s := (s.notify (.adapterSaved name size)).restoreKvContext calls.shrinks
      (s.notify .trainingFinished,.ok (.adapterSaved name size))

def trainingFinish (s : State) (finished : Except String Trained) (shrinks : Except String Unit) :
    State × Reply :=
  match s.trainingSession with
  | none => (s,.error "no training session to finish")
  | some session =>
    s.orThrow finished fun trained =>
      let s := { s with trainingSession := none, model := some (session.takeModel trained) }
      ((s.kvInvalidate.restoreKvContext shrinks).notify .trainingFinished,.ok (.bool true))

/-- `bytes` is the outcome of `readAdapterBytes`, `slots` that of `model.loadAdapter`. -/
def trainingApplyAdapter (s : State) (name : Option String) (bytes : Except String Bytes)
    (slots : Except String ℕ) : State × Reply :=
  match s.model with
  | none => (s,.error "load a model before applying an adapter")
  | some m =>
    if s.trainingSession.isSome then
      (s,.error "active training session owns the model — finish it first")
    else if trimmed name = "" then (s,.error "trainingApplyAdapter: 'name' required")
    else
      s.orThrow bytes fun bytes =>
      s.orThrow slots fun slots =>
        let s := { (s.setModel (m.loadAdapter bytes)).kvInvalidate with
          activeAdapterName := some (trimmed name) }
        (s.notify (.adapterChanged (some (trimmed name)) (some slots) none),
          .ok (.adapterApplied (trimmed name) slots))

def trainingClearAdapter (s : State) (clears : Except String Unit) : State × Reply :=
  match s.model with
  | none => (s,.ok (.bool false))
  | some m =>
    if s.trainingSession.isSome then
      (s,.error "active training session owns the model — finish it first")
    else
      s.orThrow clears fun _ =>
        ({ (s.setModel m.clearAdapter).kvInvalidate with activeAdapterName := none }.notify
          (.adapterChanged none none s.activeAdapterName),.ok (.bool true))

/-- The adapter is taken off the model if it is the active one; a failure to remove the file
is ignored. -/
def trainingDeleteAdapter (s : State) (name : Option String) (clears : Except String Unit) :
    State × Reply :=
  if trimmed name = "" then (s,.error "trainingDeleteAdapter: 'name' required")
  else
    let s :=
      if s.activeAdapterName = some (trimmed name) ∧ s.model.isSome then
        { (s.tryClearAdapter clears).kvInvalidate with activeAdapterName := none }.notify
          (.adapterChanged none none none)
      else s
    (s.notify (.adapterDeleted (trimmed name)),.ok (.bool true))

end State
end Rullama.CoreWorker
