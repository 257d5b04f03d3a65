import Mathlib.Algebra.GroupWithZero.Nat
import Rullama.Native.GenerationQueue
import Rullama.Text.Units

/-! # Queue store

The queue is persisted as a manifest of its jobs, in JSON, with the media of each job in files
beside it. Loading sorts the manifest by the time of creation and attaches the media again.
-/
namespace Rullama.Native.Generation
open Text

/-! ## Jobs -/

/-- The bits of a number of single precision. -/
abbrev Single := UInt32

/-- As for code units. -/
instance decidableBallSingle (p : Single → Prop) [DecidablePred p] (l : List Single) :
    Decidable (∀ x ∈ l, p x) := List.decidableBAll p l

/-- Neither infinite nor `NaN`. -/
def isFinite (x : Single) : Bool := x.toNat / 2 ^ 23 % 2 ^ 8 ≠ 255

@[ext]
structure GenJob where
  jobId : Units
  convId : Units := []
  modelRowId : ℤ := 0
  userText : Units := []
  createdAt : ℤ
  temperature : Single := 0x3F800000
  topK : ℕ := 64
  topP : Single := 0x3F733333
  repetitionPenalty : Single := 0x3FA66666
  maxTokens : ℕ := 1024
  thinking : Bool := false
  toolMode : Bool := false
  orchestratorMode : Bool := false
  systemContent : Units := []
  useFahrenheit : Bool := false
  useLocation : Bool := false
  weatherApiKey : Option Units := none
  imagePixels : Option (List Single) := none
  imageH : ℤ := 0
  imageW : ℤ := 0
  audioPcm : Option (List Single) := none
  status : JobStatus := .queued
deriving DecidableEq

structure JobDto where
  jobId : Units
  convId : Units
  modelRowId : ℤ
  userText : Units
  createdAt : ℤ
  temperature : Single
  topK : ℕ
  topP : Single
  repetitionPenalty : Single
  maxTokens : ℕ
  thinking : Bool
  toolMode : Bool
  systemContent : Units
  useFahrenheit : Bool
  useLocation : Bool
  weatherApiKey : Option Units
  hasImage : Bool
  imageH : ℤ
  imageW : ℤ
  hasAudio : Bool

namespace GenJob
variable (j : GenJob)

def hasImage : Bool := j.imagePixels.isSome || j.imageH > 0

def hasAudio : Bool := j.audioPcm.isSome

def dto : JobDto :=
  ⟨j.jobId,j.convId,j.modelRowId,j.userText,j.createdAt,j.temperature,j.topK,j.topP,
    j.repetitionPenalty,j.maxTokens,j.thinking,j.toolMode,j.systemContent,j.useFahrenheit,
    j.useLocation,j.weatherApiKey,j.hasImage,j.imageH,j.imageW,j.hasAudio⟩

end GenJob

/-! ## Texts in JSON -/

def isHigh (c : UInt16) : Bool := 0xD800 ≤ c && c < 0xDC00

def isLow (c : UInt16) : Bool := 0xDC00 ≤ c && c < 0xE000

/-- The writer replaces a unit that is half of a surrogate pair. -/
def scrub : Units → Units
  | [] => []
  | [c] => if isHigh c || isLow c then [0xFFFD] else [c]
  | c :: d :: s =>
    if isHigh c then if isLow d then c :: d :: scrub s else 0xFFFD :: scrub (d :: s)
    else if isLow c then 0xFFFD :: scrub (d :: s) else c :: scrub (d :: s)

namespace JobDto

def scrubbed (m : JobDto) : JobDto :=
  { m with
    jobId := scrub m.jobId
    convId := scrub m.convId
    userText := scrub m.userText
    systemContent := scrub m.systemContent
    weatherApiKey := m.weatherApiKey.map scrub }

def numbers (m : JobDto) : List Single := [m.temperature,m.topP,m.repetitionPenalty]

end JobDto

/-- The serializer of the platform, with what is relied on: it throws on a number that is not
finite, and otherwise reads back what it wrote. -/
structure JsonSerializer (Text : Type) where
  serialize : List JobDto → Option Text
  deserialize : Text → Option (List JobDto)
  throws : ∀ metas, (∃ m ∈ metas, ∃ x ∈ m.numbers, isFinite x = false) → serialize metas = none
  reads : ∀ metas, (∀ m ∈ metas, ∀ x ∈ m.numbers, isFinite x = true) →
    ∃ text, serialize metas = some text ∧ deserialize text = some (metas.map JobDto.scrubbed)

/-! ## Media -/

def singleBytes (x : Single) : List UInt8 :=
  [UInt8.ofNat x.toNat,UInt8.ofNat (x.toNat / 2 ^ 8),UInt8.ofNat (x.toNat / 2 ^ 16),
    UInt8.ofNat (x.toNat / 2 ^ 24)]

def writeF32 (data : List Single) : List UInt8 := data.flatMap singleBytes

/-- Bytes that do not fill a number are left out. -/
def readF32 : List UInt8 → List Single
  | a :: b :: c :: d :: bytes =>
    UInt32.ofNat (a.toNat + b.toNat * 2 ^ 8 + c.toNat * 2 ^ 16 + d.toNat * 2 ^ 24) :: readF32 bytes
  | _ => []

/-- The directory of the queue: the manifest and the files beside it. -/
structure QueueDir (Path Text : Type) where
  manifest : Option Text := none
  files : Path → Option (List UInt8) := fun _ => none

section Store

variable {Path Text : Type} [DecidableEq Path] (path : Units → Path) (json : JsonSerializer Text)

def imgPath (jobId : Units) : Path := path (jobId ++ units "-img.f32")

def audPath (jobId : Units) : Path := path (jobId ++ units "-aud.f32")

/-- The files that a job has, with their data. -/
def sidecars (j : GenJob) : List (Path × List Single) :=
  (j.imagePixels.map (imgPath path j.jobId,·)).toList ++
    (j.audioPcm.map (audPath path j.jobId,·)).toList

def writeFile (dir : QueueDir Path Text) (f : Path × List Single) : QueueDir Path Text :=
  { dir with files := fun p => if p = f.1 then some (writeF32 f.2) else dir.files p }

def saveJobMedia (dir : QueueDir Path Text) (j : GenJob) : QueueDir Path Text :=
  (sidecars path j).foldl writeFile dir

/-- Nothing is written when the serializer throws. -/
def persist (dir : QueueDir Path Text) (jobs : List GenJob) : Option (QueueDir Path Text) :=
  (json.serialize (jobs.map GenJob.dto)).map (fun text => { dir with manifest := some text })

def loadJob (dir : QueueDir Path Text) (m : JobDto) : GenJob where
  jobId := m.jobId
  convId := m.convId
  modelRowId := m.modelRowId
  userText := m.userText
  createdAt := m.createdAt
  temperature := m.temperature
  topK := m.topK
  topP := m.topP
  repetitionPenalty := m.repetitionPenalty
  maxTokens := m.maxTokens
  thinking := m.thinking
  toolMode := m.toolMode
  systemContent := m.systemContent
  useFahrenheit := m.useFahrenheit
  useLocation := m.useLocation
  weatherApiKey := m.weatherApiKey
  imageH := m.imageH
  imageW := m.imageW
  imagePixels := if m.hasImage then (dir.files (imgPath path m.jobId)).map readF32 else none
  audioPcm := if m.hasAudio then (dir.files (audPath path m.jobId)).map readF32 else none

def load (dir : QueueDir Path Text) : List GenJob :=
  match dir.manifest with
  | none => []
  | some text =>
    match json.deserialize text with
    | none => []
    | some metas =>
      (metas.mergeSort (fun a b => a.createdAt ≤ b.createdAt)).map (loadJob path dir)

/-- The jobs are saved and persisted, and are the same when they are loaded again. -/
def RoundTrips (dir : QueueDir Path Text) (jobs : List GenJob) : Prop :=
  ∃ saved, persist json (jobs.foldl (saveJobMedia path) dir) jobs = some saved ∧
    load path json saved = jobs

/-! ## When they are the same -/

/-- What is written to a file last. -/
def lastWritten (jobs : List GenJob) (p : Path) : Option (List Single) :=
  (jobs.flatMap (sidecars path)).reverse.lookup p

/-- The manifest holds what the job was enqueued with. -/
structure GenJob.Plain (j : GenJob) : Prop where
  orchestrator : j.orchestratorMode = false
  numbers : ∀ x ∈ j.dto.numbers, isFinite x = true
  texts : ∀ s ∈ [j.jobId,j.convId,j.userText,j.systemContent] ++ j.weatherApiKey.toList, scrub s = s

/-- The files under its names are its own: nothing else is written to them later, and there is
none for an image of which it has the size only. -/
structure Own (dir : QueueDir Path Text) (jobs : List GenJob) (j : GenJob) : Prop where
  image : ∀ data, j.imagePixels = some data →
    lastWritten path jobs (imgPath path j.jobId) = some data
  noImage : j.imagePixels = none → 0 < j.imageH →
    lastWritten path jobs (imgPath path j.jobId) = none ∧
      dir.files (imgPath path j.jobId) = none
  audio : ∀ data, j.audioPcm = some data →
    lastWritten path jobs (audPath path j.jobId) = some data

end Store

/-! ## Bytes -/

theorem readF32_singleBytes (x : Single) (bytes : List UInt8) :
    readF32 (singleBytes x ++ bytes) = x :: readF32 bytes := by
  have hlt := x.toNat_lt
  have hword : UInt32.ofNat ((UInt8.ofNat x.toNat).toNat +
      (UInt8.ofNat (x.toNat / 2 ^ 8)).toNat * 2 ^ 8 +
      (UInt8.ofNat (x.toNat / 2 ^ 16)).toNat * 2 ^ 16 +
      (UInt8.ofNat (x.toNat / 2 ^ 24)).toNat * 2 ^ 24) = x := by
    apply UInt32.toNat_inj.mp
    simp only [UInt8.toNat_ofNat',UInt32.toNat_ofNat']
    omega
  rw [singleBytes]
  simp only [List.cons_append,List.nil_append,readF32,hword]

theorem readF32_writeF32 (data : List Single) : readF32 (writeF32 data) = data := by
  induction data with
  | nil => rfl
  | cons x data ih => rw [writeF32,List.flatMap_cons,readF32_singleBytes,← writeF32,ih]

/-! ## Files -/

section Proofs

variable {Path Text : Type} [DecidableEq Path] {path : Units → Path} {json : JsonSerializer Text}
variable {dir : QueueDir Path Text} {jobs : List GenJob} {j : GenJob}

theorem files_foldl_writeFile (fs : List (Path × List Single)) (dir : QueueDir Path Text)
    (p : Path) : (fs.foldl writeFile dir).files p =
      ((fs.reverse.lookup p).map writeF32).or (dir.files p) := by
  induction fs generalizing dir with
  | nil => rfl
  | cons f fs ih =>
    obtain ⟨q,data⟩ := f
    rw [List.foldl_cons,ih,List.reverse_cons,List.lookup_append]
    cases fs.reverse.lookup p with
    | some data => rfl
    | none =>
      by_cases hp : p = q
      · simp [writeFile,hp]
      · have hbeq : (p == q) = false := beq_eq_false_iff_ne.mpr hp
        simp [writeFile,List.lookup_cons,hp,hbeq]

theorem foldl_saveJobMedia (jobs : List GenJob) (dir : QueueDir Path Text) :
    jobs.foldl (saveJobMedia path) dir = (jobs.flatMap (sidecars path)).foldl writeFile dir := by
  induction jobs generalizing dir with
  | nil => rfl
  | cons j jobs ih => rw [List.foldl_cons,ih,List.flatMap_cons,List.foldl_append,saveJobMedia]

theorem files_saved (p : Path) : (jobs.foldl (saveJobMedia path) dir).files p =
    ((lastWritten path jobs p).map writeF32).or (dir.files p) := by
  rw [foldl_saveJobMedia,files_foldl_writeFile,lastWritten]

theorem lastWritten_isSome {p : Path} {data : List Single} (hj : j ∈ jobs)
    (h : (p,data) ∈ sidecars path j) : ∃ last, lastWritten path jobs p = some last := by
  have hmem : (p,data) ∈ (jobs.flatMap (sidecars path)).reverse :=
    List.mem_reverse.mpr (List.mem_flatMap.mpr ⟨j,hj,h⟩)
  cases hl : lastWritten path jobs p with
  | some last => exact ⟨last,rfl⟩
  | none => exact absurd (List.lookup_eq_none_iff.mp hl _ hmem) (by simp)

/-- A file that was written is read as the data written last. -/
theorem read_saved {p : Path} {data : List Single} (hj : j ∈ jobs)
    (h : (p,data) ∈ sidecars path j) :
    ((jobs.foldl (saveJobMedia path) dir).files p).map readF32 = some data ↔
      lastWritten path jobs p = some data := by
  obtain ⟨last,hlast⟩ := lastWritten_isSome hj h
  rw [files_saved,hlast]
  simp [readF32_writeF32]

/-! ## One job -/

theorem image_eq_iff (hj : j ∈ jobs) :
    (if j.hasImage then
        ((jobs.foldl (saveJobMedia path) dir).files (imgPath path j.jobId)).map readF32
      else none) = j.imagePixels ↔
      (∀ data, j.imagePixels = some data →
        lastWritten path jobs (imgPath path j.jobId) = some data) ∧
      (j.imagePixels = none → 0 < j.imageH →
        lastWritten path jobs (imgPath path j.jobId) = none ∧
          dir.files (imgPath path j.jobId) = none) := by
  cases hp : j.imagePixels with
  | some data =>
    have himage : j.hasImage = true := by simp [GenJob.hasImage,hp]
    have hmem : (imgPath path j.jobId,data) ∈ sidecars path j := by simp [sidecars,hp]
    rw [if_pos himage,read_saved hj hmem]
    simp
  | none =>
    by_cases hh : 0 < j.imageH
    · have himage : j.hasImage = true := by simp [GenJob.hasImage,hh]
      rw [if_pos himage,files_saved]
      cases lastWritten path jobs (imgPath path j.jobId) with
      | some last => simp [hh]
      | none => simp [hh]
    · have himage : j.hasImage = false := by
        simp only [GenJob.hasImage,hp,Option.isSome_none,Bool.false_or]
        exact decide_eq_false hh
      simp [himage,hh]

theorem audio_eq_iff (hj : j ∈ jobs) :
    (if j.hasAudio then
        ((jobs.foldl (saveJobMedia path) dir).files (audPath path j.jobId)).map readF32
      else none) = j.audioPcm ↔
      ∀ data, j.audioPcm = some data →
        lastWritten path jobs (audPath path j.jobId) = some data := by
  cases hp : j.audioPcm with
  | some data =>
    have haudio : j.hasAudio = true := by simp [GenJob.hasAudio,hp]
    have hmem : (audPath path j.jobId,data) ∈ sidecars path j := by simp [sidecars,hp]
    rw [if_pos haudio,read_saved hj hmem]
    simp
  | none => simp [GenJob.hasAudio,hp]

theorem key_eq_iff (key : Option Units) :
    key.map scrub = key ↔ ∀ s ∈ key.toList, scrub s = s := by
  cases key <;> simp

/-- A job is loaded as it was exactly if it is plain and its files are its own. -/
theorem loadJob_eq_iff (hj : j ∈ jobs) (hq : j.status = .queued) {text : Text} :
    loadJob path { jobs.foldl (saveJobMedia path) dir with manifest := some text }
        j.dto.scrubbed = j ↔
      j.orchestratorMode = false ∧
      (∀ s ∈ [j.jobId,j.convId,j.userText,j.systemContent] ++ j.weatherApiKey.toList,
        scrub s = s) ∧
      Own path dir jobs j := by
  have htexts : (∀ s ∈ [j.jobId,j.convId,j.userText,j.systemContent] ++ j.weatherApiKey.toList,
      scrub s = s) ↔ scrub j.jobId = j.jobId ∧ scrub j.convId = j.convId ∧
        scrub j.userText = j.userText ∧ scrub j.systemContent = j.systemContent ∧
        j.weatherApiKey.map scrub = j.weatherApiKey := by
    rw [key_eq_iff]
    simp only [List.forall_mem_append,List.forall_mem_cons,List.not_mem_nil,false_imp_iff,
      implies_true,and_true,and_assoc]
  have himage := @image_eq_iff Path Text _ path dir jobs j hj
  have haudio := @audio_eq_iff Path Text _ path dir jobs j hj
  rw [htexts]
  constructor
  · intro h
    have hid : scrub j.jobId = j.jobId := congrArg GenJob.jobId h
    have hpixels := congrArg GenJob.imagePixels h
    have hpcm := congrArg GenJob.audioPcm h
    simp only [loadJob,JobDto.scrubbed,GenJob.dto,hid] at hpixels hpcm
    obtain ⟨hdata,hnone⟩ := himage.mp hpixels
    exact ⟨(congrArg GenJob.orchestratorMode h).symm,⟨hid,congrArg GenJob.convId h,
      congrArg GenJob.userText h,congrArg GenJob.systemContent h,congrArg GenJob.weatherApiKey h⟩,
      ⟨hdata,hnone,haudio.mp hpcm⟩⟩
  · rintro ⟨horch,⟨hid,hconv,huser,hsystem,hkey⟩,hown⟩
    have hpixels := himage.mpr ⟨hown.image,hown.noImage⟩
    have hpcm := haudio.mpr hown.audio
    refine GenJob.ext ?_ ?_ ?_ ?_ ?_ ?_ ?_ ?_ ?_ ?_ ?_ ?_ ?_ ?_ ?_ ?_ ?_ ?_ ?_ ?_ ?_ ?_
    all_goals simp only [loadJob,JobDto.scrubbed,GenJob.dto,hid,hconv,huser,hsystem,hkey,horch,hq]
    · exact hpixels
    · exact hpcm

/-! ## The queue -/

theorem serialize_isSome {metas : List JobDto} {text : Text} (h : json.serialize metas = some text) :
    (∀ m ∈ metas, ∀ x ∈ m.numbers, isFinite x = true) ∧
      json.deserialize text = some (metas.map JobDto.scrubbed) := by
  have hfinite : ∀ m ∈ metas, ∀ x ∈ m.numbers, isFinite x = true := by
    intro m hm x hx
    by_contra hne
    have hthrows := json.throws metas ⟨m,hm,x,hx,Bool.not_eq_true _ ▸ hne⟩
    rw [h] at hthrows
    cases hthrows
  obtain ⟨text',htext,hread⟩ := json.reads metas hfinite
  rw [h] at htext
  cases htext
  exact ⟨hfinite,hread⟩

omit [DecidableEq Path] in
theorem createdAt_loaded (metas : List JobDto) (dir : QueueDir Path Text) :
    (metas.map (loadJob path dir)).map GenJob.createdAt = metas.map JobDto.createdAt := by
  rw [List.map_map]
  rfl

theorem createdAt_metas (jobs : List GenJob) :
    ((jobs.map GenJob.dto).map JobDto.scrubbed).map JobDto.createdAt =
      jobs.map GenJob.createdAt := by
  rw [List.map_map,List.map_map]
  rfl

omit [DecidableEq Path] in
/-- The manifest sorted by creation is as it was exactly if the jobs are in that order. -/
theorem sorted_load_iff {metas : List JobDto} (hm : metas.map JobDto.createdAt =
    jobs.map GenJob.createdAt) (dir : QueueDir Path Text) :
    (metas.mergeSort (fun a b => a.createdAt ≤ b.createdAt)).map (loadJob path dir) = jobs ↔
      (jobs.map GenJob.createdAt).Pairwise (· ≤ ·) ∧ metas.map (loadJob path dir) = jobs := by
  have hkeep (hp : (jobs.map GenJob.createdAt).Pairwise (· ≤ ·)) :
      metas.mergeSort (fun a b => a.createdAt ≤ b.createdAt) = metas := by
    rw [← hm,List.pairwise_map] at hp
    exact List.mergeSort_of_pairwise (hp.imp (fun h => decide_eq_true h))
  constructor
  · intro h
    have hsorted : (metas.mergeSort (fun a b => a.createdAt ≤ b.createdAt)).Pairwise
        (fun a b => decide (a.createdAt ≤ b.createdAt) = true) := by
      refine List.pairwise_mergeSort ?_ ?_ metas
      · intro a b c hab hbc
        simp only [decide_eq_true_eq] at hab hbc ⊢
        omega
      · intro a b
        simp only [Bool.or_eq_true,decide_eq_true_eq]
        omega
    have hp : (jobs.map GenJob.createdAt).Pairwise (· ≤ ·) := by
      rw [← h,createdAt_loaded,List.pairwise_map]
      exact hsorted.imp (fun h => of_decide_eq_true h)
    rw [hkeep hp] at h
    exact ⟨hp,h⟩
  · rintro ⟨hp,h⟩
    rw [hkeep hp,h]

/-- A queue of waiting jobs round-trips exactly if it stands in the order of creation and all its
jobs are plain and have files of their own. -/
theorem roundTrips_iff (path : Units → Path) (json : JsonSerializer Text)
    (dir : QueueDir Path Text) (hq : ∀ j ∈ jobs, j.status = .queued) :
    RoundTrips path json dir jobs ↔ (jobs.map GenJob.createdAt).Pairwise (· ≤ ·) ∧
      ∀ j ∈ jobs, j.Plain ∧ Own path dir jobs j := by
  have hload (text : Text) (hread : json.deserialize text =
      some ((jobs.map GenJob.dto).map JobDto.scrubbed)) :
      load path json { jobs.foldl (saveJobMedia path) dir with manifest := some text } = jobs ↔
        (jobs.map GenJob.createdAt).Pairwise (· ≤ ·) ∧ ∀ j ∈ jobs, j.orchestratorMode = false ∧
          (∀ s ∈ [j.jobId,j.convId,j.userText,j.systemContent] ++ j.weatherApiKey.toList,
            scrub s = s) ∧ Own path dir jobs j := by
    simp only [load,hread]
    rw [sorted_load_iff (createdAt_metas jobs),List.map_map,List.map_map]
    refine and_congr_right (fun _ => ?_)
    conv_lhs => rhs; rw [← List.map_id jobs]
    rw [List.map_inj_left]
    exact forall₂_congr (fun j hj => loadJob_eq_iff hj (hq j hj))
  constructor
  · rintro ⟨saved,hsaved,hjobs⟩
    obtain ⟨text,htext,rfl⟩ := Option.map_eq_some_iff.mp hsaved
    obtain ⟨hfinite,hread⟩ := serialize_isSome htext
    obtain ⟨hp,hall⟩ := (hload text hread).mp hjobs
    refine ⟨hp,fun j hj => ?_⟩
    obtain ⟨horch,htexts,hown⟩ := hall j hj
    exact ⟨⟨horch,hfinite _ (List.mem_map_of_mem hj),htexts⟩,hown⟩
  · rintro ⟨hp,hall⟩
    have hfinite : ∀ m ∈ jobs.map GenJob.dto, ∀ x ∈ m.numbers, isFinite x = true := by
      intro m hm
      obtain ⟨j,hj,rfl⟩ := List.mem_map.mp hm
      exact (hall j hj).1.numbers
    obtain ⟨text,htext,hread⟩ := json.reads _ hfinite
    refine ⟨_,by rw [persist,htext]; rfl,(hload text hread).mpr ⟨hp,fun j hj => ?_⟩⟩
    exact ⟨(hall j hj).1.orchestrator,(hall j hj).1.texts,(hall j hj).2⟩

omit [DecidableEq Path] in
theorem load_orchestratorMode (h : j ∈ load path json dir) : j.orchestratorMode = false := by
  rw [load] at h
  split at h
  · cases h
  · split at h
    · cases h
    · obtain ⟨m,-,rfl⟩ := List.mem_map.mp h
      rfl

end Proofs

/-- A serializer whose texts are the records themselves. -/
def echo : JsonSerializer (List JobDto) where
  serialize metas :=
    if ∀ m ∈ metas, ∀ x ∈ m.numbers, isFinite x = true then some (metas.map JobDto.scrubbed) else none
  deserialize := some
  throws metas h := by
    obtain ⟨m,hm,x,hx,hne⟩ := h
    refine if_neg (fun hall => ?_)
    rw [hall m hm x hx] at hne
    cases hne
  reads metas h := ⟨_,if_pos h,rfl⟩

def tuned (id : String) (orchestratorMode : Bool) : GenJob where
  jobId := units id
  userText := units "What is this?"
  createdAt := 1700000000000
  orchestratorMode := orchestratorMode
  weatherApiKey := some (units "key")
  imagePixels := some [0x3F800000,0x7FC00000]
  imageH := 1
  imageW := 2
  audioPcm := some []

theorem tuned_roundTrips : RoundTrips id echo {} [tuned "b7" false,tuned "a3" false] := by
  refine (roundTrips_iff id echo {} (by decide +kernel)).mpr ⟨by decide +kernel,?_⟩
  have hplain : ∀ j ∈ [tuned "b7" false,tuned "a3" false], j.orchestratorMode = false ∧
      (∀ x ∈ j.dto.numbers, isFinite x = true) ∧
      ∀ s ∈ [j.jobId,j.convId,j.userText,j.systemContent] ++ j.weatherApiKey.toList,
        scrub s = s := by decide +kernel
  have hfiles : ∀ j ∈ [tuned "b7" false,tuned "a3" false],
      lastWritten id [tuned "b7" false,tuned "a3" false] (imgPath id j.jobId) = j.imagePixels ∧
      lastWritten id [tuned "b7" false,tuned "a3" false] (audPath id j.jobId) = j.audioPcm ∧
      j.imagePixels ≠ none := by decide +kernel
  intro j hj
  obtain ⟨horch,hnumbers,htexts⟩ := hplain j hj
  obtain ⟨himage,haudio,hsome⟩ := hfiles j hj
  exact ⟨⟨horch,hnumbers,htexts⟩,⟨fun _ hdata => himage.trans hdata,fun hnone => absurd hnone hsome,
    fun _ hdata => haudio.trans hdata⟩⟩

/-- A job that is to run the orchestration loop comes back without it. -/
theorem orchestrator_not_roundTrips : ¬ RoundTrips id echo {} [tuned "b7" true] := by
  rintro ⟨saved,-,hload⟩
  have hmem : tuned "b7" true ∈ load id echo saved := by
    rw [hload]
    exact List.mem_singleton_self _
  exact absurd (load_orchestratorMode hmem) nofun

end Rullama.Native.Generation
