import Rullama.Opfs.Files
import Mathlib.Logic.Function.Basic

/-! # Snapshot pairs

A snapshot is a payload and a sidecar that tells what it belongs to, each in a file of its
own. A call is a list of file operations, after any of which the worker may be killed.
-/
namespace Rullama.Opfs

inductive PairFile
  | kv
  | json
  deriving DecidableEq

/-- `call` is the number of the call that has written the file last. -/
structure SnapFile where
  content : Bytes
  call : ℕ
  deriving DecidableEq

/-- `staged` is the content of a writable that is not closed. -/
structure SnapDir where
  files : PairFile → Option SnapFile := fun _ => none
  staged : Bytes := []

inductive FileOp
  /-- an empty file is created when there is none -/
  | getFileHandle (f : PairFile)
  /-- through a sync access handle, in place -/
  | truncate (f : PairFile) (n : ℕ)
  | write (f : PairFile) (data : Bytes)
  | flush
  | closeHandle
  | createWritable
  | stageTruncate (n : ℕ)
  | stageWrite (data : Bytes)
  /-- the writable is closed, and its content replaces the file's -/
  | close (f : PairFile)
  | removeEntry (f : PairFile)

namespace SnapDir

def setFile (s : SnapDir) (f : PairFile) (x : Option SnapFile) : SnapDir :=
  { s with files := Function.update s.files f x }

/-- An operation of the call with number `call`. -/
def apply (call : ℕ) (s : SnapDir) : FileOp → SnapDir
  | .getFileHandle f => s.setFile f (some ((s.files f).getD ⟨[],call⟩))
  | .truncate f n => s.setFile f ((s.files f).map (fun x => ⟨x.content.truncate n,call⟩))
  | .write f data => s.setFile f ((s.files f).map (fun x => ⟨x.content.writeAt data 0,call⟩))
  | .flush | .closeHandle => s
  | .createWritable => { s with staged := [] }
  | .stageTruncate n => { s with staged := s.staged.truncate n }
  | .stageWrite data => { s with staged := s.staged.writeAt data 0 }
  | .close f => s.setFile f (some ⟨s.staged,call⟩)
  | .removeEntry f => s.setFile f none

def applyAll (call : ℕ) (s : SnapDir) (ops : List FileOp) : SnapDir := ops.foldl (apply call) s

end SnapDir

/-- How sidecars are written as text and read. -/
structure JsonCodec (M : Type*) where
  stringify : M → Bytes
  parse : Bytes → Option M
  parse_stringify : ∀ m, parse (stringify m) = some m
  parse_nil : parse [] = none

/-- `sync` says whether there are sync access handles. -/
inductive SnapCall (M : Type*)
  | writeSnapshotPair (sync : Bool) (bytes : Bytes) (meta_ : M)
  | deleteSnapshotPair

section calls
variable {M : Type*} (json : JsonCodec M)

/-- A payload is replaced in place, or when its writable is closed. -/
def payloadOps (sync : Bool) (bytes : Bytes) : List FileOp :=
  .getFileHandle .kv ::
    if sync then [.truncate .kv 0,.write .kv bytes,.flush,.closeHandle]
    else [.createWritable,.stageTruncate 0,.stageWrite bytes,.close .kv]

def sidecarOps (text : Bytes) : List FileOp :=
  [.getFileHandle .json,.createWritable,.stageTruncate 0,.stageWrite text,.close .json]

def SnapCall.ops : SnapCall M → List FileOp
  | .writeSnapshotPair sync bytes meta_ =>
    payloadOps sync bytes ++ sidecarOps (json.stringify meta_)
  | .deleteSnapshotPair => [.removeEntry .kv,.removeEntry .json]

def readSnapshotPair (s : SnapDir) : Option (Bytes × M) :=
  match s.files .json, s.files .kv with
  | some sidecar, some payload =>
    (json.parse sidecar.content).map (fun meta_ => (payload.content,meta_))
  | _, _ => none

/-- What calls leave that end, the first one with the number `call`. -/
def afterCalls : ℕ → SnapDir → List (SnapCall M) → SnapDir
  | _, s, [] => s
  | call, s, c :: cs => afterCalls (call + 1) (s.applyAll call (c.ops json)) cs

/-- What is left when the last call is cut off after `k` operations. -/
def afterCrash (calls : List (SnapCall M)) (last : SnapCall M) (k : ℕ) : SnapDir :=
  (afterCalls json 0 {} calls).applyAll calls.length ((last.ops json).take k)

end calls
end Rullama.Opfs
