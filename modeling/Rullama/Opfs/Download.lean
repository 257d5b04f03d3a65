import Rullama.Opfs.Files
import Rullama.Transition.Machine

/-! # Resumable downloads

A model file is downloaded into a file of the origin's private file system, from where an
earlier download has left off. Streams may break; the download then asks for the rest, a few
times. There are two such functions; the second one can be cancelled and watches the offset.
-/
namespace Rullama.Opfs
open Transition (Machine)

inductive Downloader
  | downloadToOpfs
  | doDownload
  deriving DecidableEq

def maxFetchRetries : ℕ := 5

def ggufMagic : Bytes := [0x47,0x47,0x55,0x46]

/-- How much of the file is there. `readable` says whether its head could be read, and
`skipMagic` is for files of another kind. -/
def existingOpfsSize (file : Bytes) (readable skipMagic : Bool) : ℕ :=
  if file.length < 4 then 0
  else if skipMagic then file.length
  else if readable then if file.take 4 = ggufMagic then file.length else 0
  else file.length

namespace Downloader

/-- What is there of a file that is longer than expected counts as nothing. -/
def usable (d : Downloader) (expectedSize size : ℕ) : ℕ :=
  match d with
  | downloadToOpfs => size
  | doDownload => if 0 < expectedSize ∧ expectedSize < size then 0 else size

def overran (d : Downloader) (totalBytes currentOffset : ℕ) : Bool :=
  match d with
  | downloadToOpfs => false
  | doDownload => 0 < totalBytes && totalBytes < currentOffset

def cancellable (d : Downloader) : Bool :=
  match d with
  | downloadToOpfs => false
  | doDownload => true

end Downloader

/-- `pos` is how far in the blob the stream of the server has come. -/
inductive Phase
  | fetching (currentOffset fetchAttempt : ℕ)
  | reading (currentOffset fetchAttempt totalBytes pos : ℕ)
  | returned (totalBytes : ℕ) (fromCache : Bool)
  | thrown
  deriving DecidableEq

structure Download where
  file : Bytes
  phase : Phase
  cancelled : Bool := false
  deriving DecidableEq

inductive DownloadEvent
  /-- a response, with the total of its content range and its content length -/
  | response (status : ℕ) (contentRange : Option ℕ) (contentLength : ℕ)
  /-- a fetch that fails, or a response without a body -/
  | fetchFailed
  /-- `n` bytes are read, of which `written` are stored -/
  | chunk (n written : ℕ)
  | drained
  | broke
  | cancel
  deriving DecidableEq

namespace Download
variable (d : Downloader) (blob : Bytes) (s : Download)

/-- The head of a loop, where a cancelled download ends. -/
def goOn (phase : Phase) : Download :=
  { s with phase := if d.cancellable && s.cancelled then .thrown else phase }

def start (file : Bytes) (expectedSize : ℕ) (readable skipMagic : Bool) : Download :=
  let size := d.usable expectedSize (existingOpfsSize file readable skipMagic)
  if 0 < size ∧ 0 < expectedSize ∧ expectedSize ≤ size then { file, phase := .returned size true }
  else { file := file.truncate size, phase := .fetching size 0 }

/-- A server that ignores the range starts from the beginning. -/
def restarts (status currentOffset : ℕ) : Prop := status = 200 ∧ 0 < currentOffset

instance (status currentOffset : ℕ) : Decidable (restarts status currentOffset) :=
  inferInstanceAs (Decidable (_ ∧ _))

def resumeAt (status currentOffset : ℕ) : ℕ :=
  if restarts status currentOffset then 0 else currentOffset

/-- The total that the headers of a response tell. -/
def declaredTotal (status currentOffset : ℕ) (contentRange : Option ℕ) (contentLength : ℕ) : ℕ :=
  contentRange.getD (resumeAt status currentOffset + contentLength)

def respond (currentOffset fetchAttempt status : ℕ) (contentRange : Option ℕ)
    (contentLength : ℕ) : Download :=
  if status = 416 then { s with phase := .returned s.file.length false }
  else if ¬(200 ≤ status ∧ status < 300) then { s with phase := .thrown }
  else
    let file := if restarts status currentOffset then s.file.truncate 0 else s.file
    let pos := if status = 206 then currentOffset else 0
    { s with file }.goOn d (.reading (resumeAt status currentOffset) fetchAttempt
      (declaredTotal status currentOffset contentRange contentLength) pos)

def store (currentOffset fetchAttempt totalBytes pos n written : ℕ) : Download :=
  let chunk := (blob.drop pos).take n
  let file := s.file.writeAt (chunk.take written) currentOffset
  if d.overran totalBytes (currentOffset + written) then
    { s with file, phase := .returned (currentOffset + written) false }
  else { s with file }.goOn d
    (.reading (currentOffset + written) fetchAttempt totalBytes (pos + n))

def retry (currentOffset fetchAttempt : ℕ) : Download :=
  if maxFetchRetries < fetchAttempt + 1 then { s with phase := .thrown }
  else s.goOn d (.fetching currentOffset (fetchAttempt + 1))

def next : DownloadEvent → Download
  | .response status contentRange contentLength =>
    match s.phase with
    | .fetching offset attempt => s.respond d offset attempt status contentRange contentLength
    | _ => s
  | .fetchFailed =>
    match s.phase with
    | .fetching _ _ => { s with phase := .thrown }
    | _ => s
  | .chunk n written =>
    match s.phase with
    | .reading offset attempt total pos => s.store d blob offset attempt total pos n written
    | _ => s
  | .drained =>
    match s.phase with
    | .reading offset _ _ _ => { s with phase := .returned offset false }
    | _ => s
  | .broke =>
    match s.phase with
    | .reading offset attempt _ _ => s.retry d offset attempt
    | _ => s
  | .cancel => { s with cancelled := true }

/-- An honest server has the blob, whole or from the offset that is asked for, says that the
range is past the end only where it is, or fails. A write stores no more than it is given. -/
def enabled : DownloadEvent → Prop
  | .response status _ _ =>
    match s.phase with
    | .fetching offset _ =>
      (status = 416 → blob.length ≤ offset) ∧
        (200 ≤ status ∧ status < 300 → status = 200 ∨ status = 206)
    | _ => False
  | .fetchFailed =>
    match s.phase with
    | .fetching _ _ => True
    | _ => False
  | .chunk n written =>
    match s.phase with
    | .reading _ _ _ pos => pos + n ≤ blob.length ∧ written ≤ n
    | _ => False
  | .drained =>
    match s.phase with
    | .reading _ _ _ pos => blob.length ≤ pos
    | _ => False
  | .broke =>
    match s.phase with
    | .reading _ _ _ _ => True
    | _ => False
  | .cancel => d.cancellable = true

instance decidableEnabled : ∀ (s : Download) (e : DownloadEvent), Decidable (s.enabled d blob e)
  | ⟨_,.fetching _ _,_⟩, .response _ _ _ | ⟨_,.reading _ _ _ _,_⟩, .chunk _ _ =>
    inferInstanceAs (Decidable (_ ∧ _))
  | ⟨_,.fetching _ _,_⟩, .fetchFailed | ⟨_,.reading _ _ _ _,_⟩, .broke => isTrue trivial
  | ⟨_,.reading _ _ _ _,_⟩, .drained => inferInstanceAs (Decidable (_ ≤ _))
  | _, .cancel => inferInstanceAs (Decidable (_ = _))
  | ⟨_,.fetching _ _,_⟩, .chunk _ _ | ⟨_,.fetching _ _,_⟩, .drained
  | ⟨_,.fetching _ _,_⟩, .broke | ⟨_,.reading _ _ _ _,_⟩, .response _ _ _
  | ⟨_,.reading _ _ _ _,_⟩, .fetchFailed | ⟨_,.returned _ _,_⟩, .response _ _ _
  | ⟨_,.returned _ _,_⟩, .fetchFailed | ⟨_,.returned _ _,_⟩, .chunk _ _
  | ⟨_,.returned _ _,_⟩, .drained | ⟨_,.returned _ _,_⟩, .broke
  | ⟨_,.thrown,_⟩, .response _ _ _ | ⟨_,.thrown,_⟩, .fetchFailed | ⟨_,.thrown,_⟩, .chunk _ _
  | ⟨_,.thrown,_⟩, .drained | ⟨_,.thrown,_⟩, .broke => isFalse id

end Download

def download (d : Downloader) (blob : Bytes) : Machine Download DownloadEvent :=
  ⟨Download.enabled d blob,Download.next d blob⟩

instance (d : Downloader) (blob : Bytes) (s : Download) (e : DownloadEvent) :
    Decidable ((download d blob).enabled s e) := Download.decidableEnabled d blob s e

end Rullama.Opfs
