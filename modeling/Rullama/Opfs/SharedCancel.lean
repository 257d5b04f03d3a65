import Mathlib.Logic.Function.Basic
import Rullama.Opfs.Download

/-! # Downloads that share a flag

A worker has one flag to cancel its downloads by, whatever files they are for. A download looks
at it between two reads, and clears it when it starts, also for the downloads that have not
looked at it yet.
-/
namespace Rullama.Opfs
open Transition (Machine)

structure EnsureArgs where
  modelKey : String
  filename : String
  expectedSize : ℕ
  skipMagic : Bool
  deriving DecidableEq

def EnsureArgs.key (args : EnsureArgs) : String := args.modelKey ++ "/" ++ args.filename

inductive Outcome
  | done (totalBytes : ℕ) (fromCache : Bool)
  | cancelled
  | error
  deriving DecidableEq

/-- What a call of `doDownload` waits for. -/
inductive Stage
  | idle
  | sizing (args : EnsureArgs)
  | directory (currentOffset : ℕ)
  | acquiring (currentOffset : ℕ)
  | fetching (currentOffset fetchAttempt : ℕ)
  | reading (currentOffset fetchAttempt totalBytes : ℕ)
  | waiting (currentOffset fetchAttempt : ℕ)
  | ended (outcome : Outcome)
  deriving DecidableEq

/-- What it gets. -/
inductive Answer
  | sized (readable : Bool)
  | directory (opened : Bool)
  | acquired (opened : Bool)
  | response (status : ℕ) (contentRange : Option ℕ) (contentLength : ℕ) (body : Bool)
  | fetchFailed
  | chunk (value : Bytes) (written : ℕ)
  | empty
  | drained
  | broke
  | waited
  deriving DecidableEq

namespace Stage

/-- The download is in flight. -/
def active : Stage → Bool
  | idle => false
  | ended _ => false
  | _ => true

/-- Whatever comes next brings it to a poll of the flag, unless it ends first. -/
def nearPoll : Stage → Bool
  | acquiring _ => true
  | fetching _ _ => true
  | reading _ _ _ => true
  | waiting _ _ => true
  | _ => false

/-- A write stores no more than it is given. -/
def awaits : Stage → Answer → Bool
  | sizing _,.sized _ => true
  | directory _,.directory _ => true
  | acquiring _,.acquired _ => true
  | fetching _ _,.response _ _ _ _ => true
  | fetching _ _,.fetchFailed => true
  | reading _ _ _,.chunk value written => written ≤ value.length
  | reading _ _ _,.empty => true
  | reading _ _ _,.drained => true
  | reading _ _ _,.broke => true
  | waiting _ _,.waited => true
  | _,_ => false

end Stage

/-! ## One download -/

section Advance

variable (cancelled : Bool) (file : Bytes)

def poll (stage : Stage) : Stage := if cancelled then .ended .cancelled else stage

/-- The outer `catch`. -/
def caught : Stage := .ended (if cancelled then .cancelled else .error)

/-- What is there already of the file. -/
def haveOf (args : EnsureArgs) (readable : Bool) : ℕ :=
  Downloader.doDownload.usable args.expectedSize (existingOpfsSize file readable args.skipMagic)

/-- The file is complete. -/
def isCached (args : EnsureArgs) (readable : Bool) : Bool :=
  0 < haveOf file args readable && 0 < args.expectedSize &&
    args.expectedSize ≤ haveOf file args readable

def advanceResponse (currentOffset fetchAttempt status : ℕ) (contentRange : Option ℕ)
    (contentLength : ℕ) (body : Bool) : Bytes × Stage :=
  if status = 416 then (file,.ended (.done file.length false))
  else if ¬(200 ≤ status ∧ status < 300) then (file,caught cancelled)
  else
    let file := if Download.restarts status currentOffset then file.truncate 0 else file
    if body then
      (file,poll cancelled (.reading (Download.resumeAt status currentOffset) fetchAttempt
        (Download.declaredTotal status currentOffset contentRange contentLength)))
    else (file,caught cancelled)

def advanceChunk (currentOffset fetchAttempt totalBytes : ℕ) (value : Bytes) (written : ℕ) :
    Bytes × Stage :=
  let file := file.writeAt (value.take written) currentOffset
  if Downloader.doDownload.overran totalBytes (currentOffset + written) then
    (file,.ended (.done (currentOffset + written) false))
  else (file,poll cancelled (.reading (currentOffset + written) fetchAttempt totalBytes))

/-- A user cancel is not a transient network error. -/
def advanceBroke (currentOffset fetchAttempt : ℕ) : Stage :=
  if cancelled then caught cancelled
  else if maxFetchRetries < fetchAttempt + 1 then caught cancelled
  else .waiting currentOffset (fetchAttempt + 1)

/-- From one `await` of `doDownload` to the next one, or to its end. -/
def advance : Stage → Answer → Bytes × Stage
  | .sizing args,.sized readable =>
    if isCached file args readable then (file,.ended (.done (haveOf file args readable) true))
    else (file,.directory (haveOf file args readable))
  | .directory offset,.directory opened => (file,if opened then .acquiring offset else .ended .error)
  | .acquiring offset,.acquired opened =>
    if opened then (file.truncate offset,poll cancelled (.fetching offset 0))
    else (file,caught cancelled)
  | .fetching offset attempt,.response status contentRange contentLength body =>
    advanceResponse cancelled file offset attempt status contentRange contentLength body
  | .fetching _ _,.fetchFailed => (file,caught cancelled)
  | .reading offset attempt total,.chunk value written =>
    advanceChunk cancelled file offset attempt total value written
  | .reading offset attempt total,.empty => (file,poll cancelled (.reading offset attempt total))
  | .reading offset _ _,.drained => (file,.ended (.done offset false))
  | .reading offset attempt _,.broke => (file,advanceBroke cancelled offset attempt)
  | .waiting offset attempt,.waited => (file,poll cancelled (.fetching offset attempt))
  | stage,_ => (file,stage)

/-- The download ends without another look at the flag. -/
def endsUnpolled : Stage → Answer → Bool
  | .sizing args,.sized readable => isCached file args readable
  | .directory _,.directory opened => !opened
  | .fetching _ _,.response status _ _ _ => status = 416
  | .reading offset _ total,.chunk _ written =>
    Downloader.doDownload.overran total (offset + written)
  | .reading _ _ _,.drained => true
  | _,_ => false

end Advance

/-- Where the flag is set, the download ends as cancelled, unless it does not come to a poll. -/
theorem advance_of_cancelled {file : Bytes} {stage : Stage} {a : Answer}
    (hawaits : stage.awaits a = true) (hends : endsUnpolled file stage a = false) :
    (advance true file stage a).2 = .ended .cancelled ∨
      stage.nearPoll = false ∧ (advance true file stage a).2.active = true := by
  cases stage with
  | idle => cases hawaits
  | ended outcome => cases hawaits
  | sizing args =>
    cases a with
    | sized readable =>
      have hnot : isCached file args readable = false := hends
      right
      rw [advance,hnot]
      exact ⟨rfl,rfl⟩
    | _ => cases hawaits
  | directory offset =>
    cases a with
    | directory opened =>
      cases opened with
      | false => cases hends
      | true => exact .inr ⟨rfl,rfl⟩
    | _ => cases hawaits
  | acquiring offset =>
    cases a with
    | acquired opened => cases opened <;> exact .inl rfl
    | _ => cases hawaits
  | fetching offset attempt =>
    cases a with
    | response status contentRange contentLength body =>
      have hnot : status ≠ 416 := of_decide_eq_false hends
      left
      rw [advance,advanceResponse,if_neg hnot]
      split
      · rfl
      · cases body <;> rfl
    | fetchFailed => exact .inl rfl
    | _ => cases hawaits
  | reading offset attempt total =>
    cases a with
    | chunk value written =>
      have hnot : Downloader.doDownload.overran total (offset + written) = false := hends
      left
      rw [advance,advanceChunk,hnot]
      rfl
    | empty => exact .inl rfl
    | drained => cases hends
    | broke => exact .inl rfl
    | _ => cases hawaits
  | waiting offset attempt =>
    cases a with
    | waited => exact .inl rfl
    | _ => cases hawaits

/-! ## The worker -/

/-- The flag, the files, and the download of each key. -/
structure Downloads where
  downloadCancelled : Bool := false
  files : String → Bytes := fun _ => []
  stages : String → Stage := fun _ => .idle

inductive DownloadsEvent
  | ensureModel (args : EnsureArgs)
  | cancelDownload
  | answer (key : String) (a : Answer)
  deriving DecidableEq

namespace Downloads

/-- A call for a file that is in flight waits for that download. -/
def next (s : Downloads) : DownloadsEvent → Downloads
  | .ensureModel args =>
    if (s.stages args.key).active then s
    else { s with
      downloadCancelled := false
      stages := Function.update s.stages args.key (.sizing args) }
  | .cancelDownload => { s with downloadCancelled := true }
  | .answer key a =>
    { s with
      files := Function.update s.files key
        (advance s.downloadCancelled (s.files key) (s.stages key) a).1
      stages := Function.update s.stages key
        (advance s.downloadCancelled (s.files key) (s.stages key) a).2 }

def enabled (s : Downloads) : DownloadsEvent → Prop
  | .answer key a => (s.stages key).awaits a = true
  | _ => True

instance (s : Downloads) : ∀ e, Decidable (s.enabled e)
  | .answer _ _ => inferInstanceAs (Decidable (_ = _))
  | .ensureModel _ => isTrue trivial
  | .cancelDownload => isTrue trivial

end Downloads

def downloads : Machine Downloads DownloadsEvent := ⟨Downloads.enabled,Downloads.next⟩

instance (s : Downloads) (e : DownloadsEvent) : Decidable (downloads.enabled s e) :=
  inferInstanceAs (Decidable (s.enabled e))

/-! ## Cancelling -/

/-- The event belongs to the download of the key. -/
def DownloadsEvent.isOf (key : String) : DownloadsEvent → Bool
  | .answer k _ => k = key
  | _ => false

/-- The next poll of the download ends it as cancelled, and it does not end otherwise before:
so it stores nothing after that poll. -/
def EndsCancelled (key : String) : Downloads → List DownloadsEvent → Prop
  | _,[] => True
  | s,e :: es =>
    if e.isOf key then
      (s.next e).stages key = .ended .cancelled ∨
        (s.stages key).nearPoll = false ∧ ((s.next e).stages key).active = true ∧
          EndsCancelled key (s.next e) es
    else EndsCancelled key (s.next e) es

/-- A cancel reaches every download that is in progress when it comes. -/
def CancelHeld (s : Downloads) (es : List DownloadsEvent) : Prop :=
  ∀ pre post, es = pre ++ .cancelDownload :: post →
    ∀ key, ((downloads.exec s pre).stages key).active = true →
      EndsCancelled key (downloads.exec s (pre ++ [.cancelDownload])) post

/-- While the flag is set, no download starts as long as another is in progress, and none ends
without a poll. -/
def Downloads.Heeds (s : Downloads) : DownloadsEvent → Prop
  | .ensureModel args => (s.stages args.key).active = false → s.downloadCancelled = true →
    ∀ key, (s.stages key).active = false
  | .cancelDownload => True
  | .answer key a => s.downloadCancelled = true → endsUnpolled (s.files key) (s.stages key) a = false

variable {s : Downloads} {key : String}

/-- Once the flag is set, it stays set until the download has polled it. -/
theorem endsCancelled_of_heeds {es : List DownloadsEvent} (hr : downloads.Run s es)
    (hheeds : ∀ p ∈ downloads.trail s es, p.1.Heeds p.2) (hflag : s.downloadCancelled = true)
    (hactive : (s.stages key).active = true) : EndsCancelled key s es := by
  induction es generalizing s with
  | nil => trivial
  | cons e es ih =>
    obtain ⟨henabled,hrest⟩ := hr
    rw [Machine.forall_trail_cons] at hheeds
    obtain ⟨hhead,htail⟩ := hheeds
    rw [EndsCancelled]
    cases e with
    | ensureModel args =>
      have hcoalesced : (s.stages args.key).active = true := by
        by_contra hfresh
        have hall := hhead (Bool.eq_false_iff.mpr hfresh) hflag key
        rw [hactive] at hall
        cases hall
      have hsame : s.next (.ensureModel args) = s := if_pos hcoalesced
      have hnext : downloads.next s (.ensureModel args) = s := hsame
      rw [hnext] at hrest htail
      rw [hsame]
      exact ih hrest htail hflag hactive
    | cancelDownload => exact ih hrest htail rfl hactive
    | answer k a =>
      by_cases hk : k = key
      · subst hk
        have hstage : (s.next (.answer k a)).stages k =
            (advance true (s.files k) (s.stages k) a).2 := by
          rw [Downloads.next,hflag]
          exact Function.update_self ..
        have hof : (DownloadsEvent.answer k a).isOf k = true := decide_eq_true rfl
        rw [if_pos hof,hstage]
        rcases advance_of_cancelled henabled (hhead hflag) with hcancelled | ⟨hnear,hgoes⟩
        · exact .inl hcancelled
        · exact .inr ⟨hnear,hgoes,ih hrest htail hflag (hstage ▸ hgoes)⟩
      · have hstage : (s.next (.answer k a)).stages key = s.stages key :=
          Function.update_of_ne (Ne.symm hk) ..
        rw [if_neg (by simpa [DownloadsEvent.isOf] using hk)]
        exact ih hrest htail hflag (hstage ▸ hactive)

/-- A cancel is not lost in a run in which no download starts while a cancelled one goes on, and
none of these ends without a poll. -/
theorem cancelHeld_of_heeds {es : List DownloadsEvent} (hr : downloads.Run s es)
    (hheeds : ∀ p ∈ downloads.trail s es, p.1.Heeds p.2) : CancelHeld s es := by
  rintro pre post rfl key hactive
  have hsplit : pre ++ .cancelDownload :: post = (pre ++ [.cancelDownload]) ++ post := by simp
  rw [hsplit] at hr hheeds
  have hpost := (Machine.run_append downloads).mp hr
  have htrail : ∀ p ∈ downloads.trail (downloads.exec s (pre ++ [.cancelDownload])) post,
      p.1.Heeds p.2 := by
    intro p hp
    refine hheeds p ?_
    rw [Machine.trail_append]
    exact List.mem_append_right _ hp
  refine endsCancelled_of_heeds hpost.2 htrail ?_ ?_
  · rw [Machine.exec_append]
    rfl
  · rw [Machine.exec_append]
    exact hactive

/-! Two files, each with an answer of eight bytes. -/

def firstFile : EnsureArgs := ⟨"gemma","weights",0,true⟩

def otherFile : EnsureArgs := ⟨"embedder","weights",0,true⟩

/-- The first download has read half of the answer when the cancel comes. -/
def cancelHalfway : List DownloadsEvent :=
  [.ensureModel firstFile,.answer firstFile.key (.sized true),
    .answer firstFile.key (.directory true),.answer firstFile.key (.acquired true),
    .answer firstFile.key (.response 200 none 8 true),
    .answer firstFile.key (.chunk [1,2,3,4] 4),.cancelDownload]

def lastChunk : DownloadsEvent := .answer firstFile.key (.chunk [5,6,7,8] 4)

theorem lastChunk_cancelHeld : CancelHeld {} (cancelHalfway ++ [lastChunk]) := by
  refine cancelHeld_of_heeds (by decide +kernel) ?_
  simp only [cancelHalfway,List.cons_append,List.nil_append,Machine.forall_trail_cons]
  refine ⟨fun _ h => ?_,fun h => ?_,fun h => ?_,fun h => ?_,fun h => ?_,fun h => ?_,trivial,
    fun _ => ?_,Machine.forall_trail_nil⟩
  · cases h
  · cases h
  · cases h
  · cases h
  · cases h
  · cases h
  · decide

/-- Another download that starts before the next poll revives the first one. -/
theorem otherFile_not_cancelHeld :
    downloads.Run {} (cancelHalfway ++ [.ensureModel otherFile,lastChunk]) ∧
      ¬ CancelHeld {} (cancelHalfway ++ [.ensureModel otherFile,lastChunk]) := by
  refine ⟨by decide +kernel,fun h => ?_⟩
  have hends := h cancelHalfway.dropLast [.ensureModel otherFile,lastChunk] rfl firstFile.key (by decide)
  have hpoll : EndsCancelled firstFile.key
      (downloads.exec {} (cancelHalfway ++ [.ensureModel otherFile])) [lastChunk] := hends
  rcases hpoll with hcancelled | ⟨hnear,-⟩
  · exact absurd hcancelled (by decide)
  · exact absurd hnear (by decide)

end Rullama.Opfs
