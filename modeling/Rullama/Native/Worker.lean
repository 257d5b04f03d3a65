import Rullama.Transition.Machine
import Mathlib.Logic.Function.Basic

/-! # The engine's thread and its cancel flag

A model is owned by one thread that takes commands from a channel. One flag for each model
asks it to stop; it is set from other threads and cleared when a generation starts. A
generation is called with a token whose cancellation sets the flag, from the moment the
call has registered for it until the call returns.
-/
namespace Rullama.Native
open Transition (Machine)

/-- A media item: so many values in rows of `dText`, spliced in after a token. -/
structure Splice where
  sentinelBegin : ℕ
  soft : ℕ
  dText : ℕ

structure Generation where
  prompt : List ℕ
  maxNew : ℕ
  splice : Option Splice := none

/-- How many steps of the engine the prompt takes. -/
def Generation.prefillSteps (gen : Generation) : Except String ℕ :=
  if gen.prompt = [] then .error "empty prompt"
  else
    match gen.splice with
    | none => .ok gen.prompt.length
    | some sp =>
      if sp.dText = 0 ∨ sp.soft % sp.dText ≠ 0 then .error "bad soft-token dims"
      else .ok (gen.prompt.length + gen.prompt.count sp.sentinelBegin * (sp.soft / sp.dText))

/-- `other` stands for the commands that have nothing to do with the flag. -/
inductive Command where
  | generate (id : ℕ) (gen : Generation)
  | other
  | shutdown

namespace Command

def generation : Command → Option ℕ
  | .generate id _ => some id
  | _ => none

def isShutdown : Command → Bool
  | .shutdown => true
  | _ => false

end Command

inductive Worker where
  | idle
  | received (id : ℕ) (gen : Generation)
  | prefilling (id : ℕ) (gen : Generation) (steps : ℕ)
  /-- at the head of the decode loop -/
  | polling (id : ℕ) (gen : Generation) (produced : ℕ)
  /-- past the poll, with a piece to emit -/
  | emitting (id : ℕ) (gen : Generation) (produced : ℕ)
  | stepping (id : ℕ) (gen : Generation) (produced : ℕ)
  | stopped

namespace Worker

/-- The generation that runs, for which the flag has been cleared. -/
def current : Worker → Option ℕ
  | .prefilling id _ _ | .polling id _ _ | .emitting id _ _ | .stepping id _ _ => some id
  | _ => none

/-- The generation that has been taken from the channel and not been started. -/
def awaited : Worker → Option ℕ
  | .received id _ => some id
  | _ => none

def isStopped : Worker → Bool
  | .stopped => true
  | _ => false

end Worker

/-- How far the call of a generation has come. -/
inductive Stage where
  | begun
  | registered
  | queued
  | running
  | replied
  | returned
deriving DecidableEq

/-- A cancellation of the call's token is passed on. -/
def Stage.isRegistered : Stage → Bool
  | .registered | .queued | .running | .replied => true
  | .begun | .returned => false

structure Engine where
  cancel : Bool := false
  channel : List Command := []
  worker : Worker := .idle
  calls : ℕ → Option Stage := fun _ => none
  tokenCancelled : ℕ → Bool := fun _ => false
  /-- `rl_model_free` has been called -/
  freed : Bool := false
  shutdownSent : Bool := false

inductive EngineEvent where
  | beginCall (id : ℕ)
  | register (id : ℕ)
  | send (id : ℕ) (gen : Generation)
  | sendOther
  | dispose (id : ℕ)
  | cancelToken (id : ℕ)
  | free
  | sendShutdown
  | receive
  | start (loaded : Bool)
  | prefillStep (ok : Bool)
  | poll (eos : Bool)
  | emit
  | step (ok : Bool)

namespace Engine
variable (s : Engine)

def setCall (id : ℕ) (stage : Stage) : Engine :=
  { s with calls := Function.update s.calls id (some stage) }

/-- Registering runs the callback at once when the token has been cancelled. -/
def register (id : ℕ) : Engine :=
  { s.setCall id .registered with cancel := s.cancel || s.tokenCancelled id }

def cancelToken (id : ℕ) : Engine :=
  { s with
    tokenCancelled := Function.update s.tokenCancelled id true
    cancel := s.cancel || (s.calls id).any Stage.isRegistered }

/-- Nothing is sent to a worker that has ended. -/
def sendCommand (cmd : Command) : Engine :=
  if s.worker.isStopped then s else { s with channel := s.channel ++ [cmd] }

/-- The command of a call, which fails when the worker has ended. -/
def send (id : ℕ) (gen : Generation) : Engine :=
  if s.worker.isStopped then s.setCall id .replied
  else (s.setCall id .queued).sendCommand (.generate id gen)

/-- The worker replies and goes back to the channel. -/
def finish (id : ℕ) : Engine := { s.setCall id .replied with worker := .idle }

/-- With the end of the worker the rest of the channel is dropped. -/
def receive : Engine :=
  match s.channel with
  | [] => s
  | .generate id gen :: rest => { s with channel := rest, worker := .received id gen }
  | .other :: rest => { s with channel := rest }
  | .shutdown :: _ => { s with channel := [], worker := .stopped }

/-- `Generate` and `GenerateSpliced`, up to the prefill. -/
def start (loaded : Bool) : Engine :=
  match s.worker with
  | .received id gen =>
    if loaded then
      let s := { s with cancel := false }
      match gen.prefillSteps with
      | .error _ => s.finish id
      | .ok steps => { s.setCall id .running with worker := .prefilling id gen steps }
    else s.finish id
  | _ => s

def prefillStep (ok : Bool) : Engine :=
  match s.worker with
  | .prefilling id gen steps =>
    if ok then
      { s with worker := if steps ≤ 1 then .polling id gen 0 else .prefilling id gen (steps - 1) }
    else s.finish id
  | _ => s

/-- The head of `decode_loop`. -/
def poll (eos : Bool) : Engine :=
  match s.worker with
  | .polling id gen produced =>
    if produced < gen.maxNew then
      if s.cancel || eos then s.finish id else { s with worker := .emitting id gen produced }
    else s.finish id
  | _ => s

def emit : Engine :=
  match s.worker with
  | .emitting id gen produced => { s with worker := .stepping id gen (produced + 1) }
  | _ => s

def step (ok : Bool) : Engine :=
  match s.worker with
  | .stepping id gen produced =>
    if ok then { s with worker := .polling id gen produced } else s.finish id
  | _ => s

def next (s : Engine) : EngineEvent → Engine
  | .beginCall id => s.setCall id .begun
  | .register id => s.register id
  | .send id gen => s.send id gen
  | .sendOther => s.sendCommand .other
  | .dispose id => s.setCall id .returned
  | .cancelToken id => s.cancelToken id
  | .free => { s with cancel := true, freed := true }
  | .sendShutdown => { s.sendCommand .shutdown with shutdownSent := true }
  | .receive => s.receive
  | .start loaded => s.start loaded
  | .prefillStep ok => s.prefillStep ok
  | .poll eos => s.poll eos
  | .emit => s.emit
  | .step ok => s.step ok

/-- When an event can come. A call whose token has been cancelled before is not begun, and
a call returns with the reply or when the worker has ended. -/
def Enabled (s : Engine) : EngineEvent → Prop
  | .beginCall id => s.calls id = none ∧ s.tokenCancelled id = false
  | .register id => s.calls id = some .begun
  | .send id _ => s.calls id = some .registered
  | .sendOther => True
  | .dispose id => s.calls id = some .replied ∨ s.calls id = some .queued ∧ s.worker.isStopped = true
  | .cancelToken id => s.tokenCancelled id = false
  | .free => s.freed = false
  | .sendShutdown => s.freed = true ∧ s.shutdownSent = false
  | .receive => s.worker = .idle ∧ s.channel ≠ []
  | .start _ => s.worker.awaited ≠ none
  | .prefillStep _ => ∃ id gen steps, s.worker = .prefilling id gen steps
  | .poll _ => ∃ id gen produced, s.worker = .polling id gen produced
  | .emit => ∃ id gen produced, s.worker = .emitting id gen produced
  | .step _ => ∃ id gen produced, s.worker = .stepping id gen produced

end Engine

/-- The threads that share a model, one action at a time. -/
def engine : Machine Engine EngineEvent where
  enabled := Engine.Enabled
  next := Engine.next

end Rullama.Native
