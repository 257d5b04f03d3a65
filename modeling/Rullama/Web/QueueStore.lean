import Rullama.Bytes.LittleEndian
import Rullama.Transition.Machine
import Rullama.Web.QueueManifest

/-! # The stored queue of the web app

The jobs that wait are written to a manifest, and the pixels and sound of each job to files in a
directory of its own. After a reload the queue is rebuilt from them.
-/
namespace Rullama.Web
open Text Transition
open Text.Json (Value Valid toBytes ofBytes)
open Bytes (wordBytes words)

variable {Message : Type*}

/-! ## Files -/

abbrev Files := Units → Option (List UInt8)

inductive Entry where
  | file (bytes : List UInt8)
  | directory (files : Files)

/-- The directory of the queue. -/
abbrev QueueDir := Units → Option Entry

def manifestName : Units := units "manifest.json"

/-- What can be the name of a file where paths are separated by these characters. -/
def IsFileName (separators name : Units) : Prop :=
  name ≠ [] ∧ name ≠ units "." ∧ name ≠ units ".." ∧ ∀ c ∈ name, c ∉ separators

instance (separators name : Units) : Decidable (IsFileName separators name) :=
  inferInstanceAs (Decidable (_ ∧ _ ∧ _ ∧ _))

variable (separators : Units)

/-- `getDirectoryHandle`, which creates the directory or not, and can throw. -/
def getDirectory (dir : QueueDir) (name : Units) (create : Bool) : Option Files :=
  if IsFileName separators name then
    match dir name with
    | none => if create then some (fun _ => none) else none
    | some (.directory files) => some files
    | some (.file _) => none
  else none

/-- `getFileHandle` and the writes, which throw where there is a directory of that name. -/
def writeManifest (dir : QueueDir) (bytes : List UInt8) : QueueDir :=
  match dir manifestName with
  | some (.directory _) => dir
  | _ => Function.update dir manifestName (some (.file bytes))

/-! ## Media -/

inductive MediaKind where
  | img
  | aud
  deriving DecidableEq

def MediaKind.text : MediaKind → Units
  | .img => units "img-"
  | .aud => units "aud-"

inductive Extension where
  | f32
  | json
  deriving DecidableEq

def Extension.text : Extension → Units
  | .f32 => units ".f32"
  | .json => units ".json"

def mediaName (kind : MediaKind) (n : ℕ) (extension : Extension) : Units :=
  kind.text ++ decimal n ++ extension.text

def float32Bytes (data : List UInt32) : List UInt8 := data.flatMap wordBytes

/-- The constructor throws where the length is no multiple of four. -/
def float32Array (bytes : List UInt8) : Option (List UInt32) :=
  if bytes.length % 4 = 0 then some (words bytes) else none

/-- An attachment as it is stored: its samples, and the rest of it in JSON. -/
structure Stored where
  data : List UInt32
  info : Value

def ImageAttachment.stored (im : ImageAttachment) : Option Stored :=
  im.pixels.map fun pixels =>
    ⟨pixels,.object [(units "h",im.h.json),(units "w",im.w.json),
      (units "dataUrl",.string im.dataUrl)]⟩

def AudioClip.stored (a : AudioClip) : Stored :=
  ⟨a.pcm,.object [(units "durationMs",a.durationMs.json)]⟩

/-- The files of one kind, with the number of the first. -/
def mediaFiles (kind : MediaKind) : ℕ → List Stored → List (Units × List UInt8)
  | _,[] => []
  | n,m :: media =>
    (mediaName kind n .f32,float32Bytes m.data) :: (mediaName kind n .json,toBytes m.info) ::
      mediaFiles kind (n + 1) media

def jobFiles (job : GenJob Message) : List (Units × List UInt8) :=
  mediaFiles .img 0 (job.images.filterMap ImageAttachment.stored) ++
    mediaFiles .aud 0 (job.audio.map AudioClip.stored)

def writeFiles (files : Files) (writes : List (Units × List UInt8)) : Files :=
  writes.foldl (fun files w => Function.update files w.1 (some w.2)) files

/-! ## The operations of the store

The state is the directory of the queue, where it exists.
-/

def persistQueue (root : Option QueueDir) (jobs : List (GenJob Message)) : Option QueueDir :=
  some (writeManifest (root.getD (fun _ => none))
    (toBytes (manifestJson (jobs.map toPersisted))))

def saveJobMedia (root : Option QueueDir) (job : GenJob Message) : Option QueueDir :=
  if job.images.all (fun im => im.pixels.isNone) && job.audio.isEmpty then root
  else
    let dir := root.getD (fun _ => none)
    match getDirectory separators dir job.jobId true with
    | none => some dir
    | some files =>
      some (Function.update dir job.jobId (some (.directory (writeFiles files (jobFiles job)))))

def dropJobMedia (root : Option QueueDir) (jobId : Units) : Option QueueDir :=
  root.map fun dir =>
    if IsFileName separators jobId then Function.update dir jobId none else dir

/-- What one turn of a loop over the media finds. -/
inductive Found (α : Type*) where
  | missing
  | throws
  | media (a : α)

def readMedia {α : Type*} (files : Files) (kind : MediaKind)
    (make : List UInt32 → Value → Option α) (n : ℕ) : Found α :=
  match (files (mediaName kind n .json)).bind ofBytes,files (mediaName kind n .f32) with
  | some m,some bytes =>
    match float32Array bytes with
    | none => .throws
    | some data => (make data m).elim .missing .media
  | _,_ => .missing

/-- The media up to the first that is missing, and whether reading one has thrown. -/
def loadMedia {α : Type*} (read : ℕ → Found α) : ℕ → ℕ → List α × Bool
  | 0,_ => ([],false)
  | count + 1,n =>
    match read n with
    | .missing => ([],false)
    | .throws => ([],true)
    | .media a => (loadMedia read count (n + 1)).map (a :: ·) id

def asImage (data : List UInt32) (v : Value) : Option ImageAttachment := do
  let fields ← asObject v
  return { pixels := some data
           h := ← property asNum "h" fields
           w := ← property asNum "w" fields
           dataUrl := ← property asString "dataUrl" fields }

def asAudio (data : List UInt32) (v : Value) : Option AudioClip := do
  let fields ← asObject v
  return { pcm := data, durationMs := ← property asNum "durationMs" fields }

/-- The media of a job, none where it has no directory; the sound is not read where reading an
image has thrown. -/
def loadJobMedia (dir : QueueDir) (p : PersistedJob) : List ImageAttachment × List AudioClip :=
  match getDirectory separators dir p.jobId false with
  | none => ([],[])
  | some files =>
    let images := loadMedia (readMedia files .img asImage) p.nImages 0
    if images.2 then (images.1,[])
    else (images.1,(loadMedia (readMedia files .aud asAudio) p.nAudio 0).1)

def loadJob (dir : QueueDir) (p : PersistedJob) : GenJob Message :=
  let media := loadJobMedia separators dir p
  { jobId := p.jobId
    convId := p.convId
    modelMsgId := p.modelMsgId
    userText := p.userText
    createdAt := p.createdAt
    priorFromDb := true
    priorMessages := []
    sysContent := p.sysContent
    sampling := p.sampling
    maxTokens := p.maxTokens
    thinking := p.thinking
    toolMode := p.toolMode
    weatherApiKey := p.weatherApiKey
    newsApiKey := p.newsApiKey.getD []
    weatherUnits := p.weatherUnits
    orchestratorMode := p.orchestratorMode.getD false
    diffusion := p.diffusion
    cloud := p.cloud
    modelDigest := p.modelDigest
    images := media.1
    audio := media.2
    status := .queued }

/-- Nothing where the manifest is JSON that no queue has written. -/
def loadQueue (root : Option QueueDir) : Option (List (GenJob Message)) :=
  match root with
  | none => some []
  | some dir =>
    match dir manifestName with
    | some (.file bytes) =>
      match ofBytes bytes with
      | none => some []
      | some v => (asManifest v).map (fun jobs => jobs.map (loadJob separators dir))
    | _ => some []

/-! ## The queue and the store -/

structure QueueState (Message : Type*) where
  queue : List (GenJob Message)
  root : Option QueueDir

def waiting (queue : List (GenJob Message)) : List (GenJob Message) :=
  queue.filter (fun j => j.status = .queued)

/-- The queue is replaced, and those of its jobs that wait are persisted. -/
def commitQueue (s : QueueState Message) (next : List (GenJob Message)) : QueueState Message :=
  ⟨next,persistQueue s.root (waiting next)⟩

/-- A job can be resumed with this model, and the conversations that there are. -/
def Resumable (digest : Units) (convIds : List Units) (j : GenJob Message) : Prop :=
  (j.modelDigest = [] ∨ digest = [] ∨ j.modelDigest = digest) ∧ j.convId ∈ convIds

instance (digest : Units) (convIds : List Units) :
    DecidablePred fun j : GenJob Message => Resumable digest convIds j :=
  fun _ => inferInstanceAs (Decidable (_ ∧ _))

/-- The queue after a reload: what is stored and can be resumed. The media of a job whose
conversation is gone are dropped. -/
def bootQueue (root : Option QueueDir) (digest : Units) (convIds : List Units) :
    QueueState Message :=
  match loadQueue separators root with
  | none => ⟨[],root⟩
  | some jobs =>
    let gone := jobs.filter (fun j =>
      (j.modelDigest = [] ∨ digest = [] ∨ j.modelDigest = digest) && !convIds.contains j.convId)
    let root := gone.foldl (fun root j => dropJobMedia separators root j.jobId) root
    match jobs.filter (fun j => Resumable digest convIds j) with
    | [] => ⟨[],root⟩
    | j :: jobs => commitQueue ⟨[],root⟩ (j :: jobs)

inductive QueueEvent (Message : Type*) where
  | send (job : GenJob Message)
  | start
  | finish (jobId : Units)
  | dequeue (jobId : Units)
  | dropRunning (jobId : Units)
  | reload (digest : Units) (convIds : List Units)

/-- A new job has an identifier of its own. A model is loaded again that the jobs can be resumed
with, and their conversations are still there. -/
def QueueEvent.enabled (s : QueueState Message) : QueueEvent Message → Prop
  | .send job =>
    job.status = .queued ∧ IsFileName separators job.jobId ∧ job.jobId ≠ manifestName ∧
      job.jobId ∉ s.queue.map GenJob.jobId ∧ ∀ dir, s.root = some dir → dir job.jobId = none
  | .start => True
  | .finish jobId => ∃ j ∈ s.queue, j.jobId = jobId ∧ j.status = .running
  | .dequeue jobId => ∃ j ∈ s.queue, j.jobId = jobId ∧ j.status = .queued
  | .dropRunning jobId => ∃ j ∈ s.queue, j.jobId = jobId ∧ j.status = .running
  | .reload digest convIds => ∀ j ∈ waiting s.queue, Resumable digest convIds j

def QueueEvent.next (s : QueueState Message) : QueueEvent Message → QueueState Message
  | .send job => commitQueue ⟨s.queue,saveJobMedia separators s.root job⟩ (s.queue ++ [job])
  | .start =>
    match s.queue.find? (fun j => j.status = .queued) with
    | none => s
    | some job =>
      commitQueue s
        (s.queue.map (fun j => if j.jobId = job.jobId then { j with status := .running } else j))
  | .finish jobId | .dequeue jobId =>
    let s := commitQueue s (s.queue.filter (fun j => j.jobId ≠ jobId))
    ⟨s.queue,dropJobMedia separators s.root jobId⟩
  | .dropRunning jobId => ⟨s.queue,dropJobMedia separators s.root jobId⟩
  | .reload digest convIds => bootQueue separators s.root digest convIds

def queueMachine (Message : Type*) (separators : Units) :
    Machine (QueueState Message) (QueueEvent Message) where
  enabled := QueueEvent.enabled separators
  next := QueueEvent.next separators

/-- What is there of a job after a reload. -/
def restored (j : GenJob Message) : GenJob Message :=
  { j with
    priorFromDb := true
    priorMessages := []
    images := j.images.filter (fun im => im.pixels.isSome)
    status := .queued }

/-! ## The names of the files -/

theorem mediaName_injective {kind kind' : MediaKind} {n n' : ℕ} {e e' : Extension}
    (h : mediaName kind n e = mediaName kind' n' e') : kind = kind' ∧ n = n' ∧ e = e' := by
  have hkind : kind = kind' := by
    cases kind <;> cases kind' <;> first | rfl | exact absurd (List.cons.inj h).1 (by decide)
  subst hkind
  have hrest : decimal n ++ e.text = decimal n' ++ e'.text := by
    rw [mediaName,mediaName,List.append_assoc,List.append_assoc] at h
    exact List.append_cancel_left h
  have htake : ∀ (m : ℕ) (x : Extension), (decimal m ++ x.text).takeWhile isDigit = decimal m := by
    intro m x
    rw [List.takeWhile_append_of_pos (fun c hc => isDigit_of_mem_decimal hc)]
    have hnone : x.text.takeWhile isDigit = [] := by cases x <;> decide
    rw [hnone,List.append_nil]
  have hn : decimal n = decimal n' := by rw [← htake n e,← htake n' e',hrest]
  have he : e.text = e'.text := by
    rw [hn] at hrest
    exact List.append_cancel_left hrest
  refine ⟨rfl,decimal_injective hn,?_⟩
  cases e <;> cases e' <;> first | rfl | exact absurd he (by decide)

theorem mem_mediaFiles {kind : MediaKind} {n : ℕ} {media : List Stored} {name : Units}
    (h : name ∈ (mediaFiles kind n media).map Prod.fst) :
    ∃ i e, n ≤ i ∧ name = mediaName kind i e := by
  induction media generalizing n with
  | nil => cases h
  | cons m media ih =>
    rw [mediaFiles,List.map_cons,List.map_cons,List.mem_cons,List.mem_cons] at h
    rcases h with rfl | rfl | h
    · exact ⟨n,.f32,Nat.le_refl n,rfl⟩
    · exact ⟨n,.json,Nat.le_refl n,rfl⟩
    · obtain ⟨i,e,hi,rfl⟩ := ih h
      exact ⟨i,e,by omega,rfl⟩

theorem nodup_mediaFiles (kind : MediaKind) (n : ℕ) (media : List Stored) :
    ((mediaFiles kind n media).map Prod.fst).Nodup := by
  induction media generalizing n with
  | nil => exact List.nodup_nil
  | cons m media ih =>
    rw [mediaFiles,List.map_cons,List.map_cons,List.nodup_cons,List.nodup_cons,List.mem_cons,not_or]
    have hlater : ∀ e, mediaName kind n e ∉ (mediaFiles kind (n + 1) media).map Prod.fst := by
      intro e he
      obtain ⟨i,e',hi,heq⟩ := mem_mediaFiles he
      have := (mediaName_injective heq).2.1
      omega
    exact ⟨⟨fun heq => absurd (mediaName_injective heq).2.2 (by decide),hlater _⟩,hlater _,ih _⟩

theorem nodup_jobFiles (job : GenJob Message) : ((jobFiles job).map Prod.fst).Nodup := by
  rw [jobFiles,List.map_append,List.nodup_append]
  refine ⟨nodup_mediaFiles _ _ _,nodup_mediaFiles _ _ _,?_⟩
  rintro a ha _ hb rfl
  obtain ⟨_,_,_,rfl⟩ := mem_mediaFiles ha
  obtain ⟨_,_,_,heq⟩ := mem_mediaFiles hb
  exact absurd (mediaName_injective heq).1 (by decide)

theorem writeFiles_of_notMem {writes : List (Units × List UInt8)} {name : Units}
    (h : name ∉ writes.map Prod.fst) (files : Files) : writeFiles files writes name = files name := by
  induction writes generalizing files with
  | nil => rfl
  | cons w writes ih =>
    rw [List.map_cons,List.mem_cons,not_or] at h
    rw [writeFiles,List.foldl_cons,← writeFiles,ih h.2,Function.update_of_ne h.1]

/-- Every file has what was written to it. -/
theorem writeFiles_of_mem {writes : List (Units × List UInt8)} (h : (writes.map Prod.fst).Nodup)
    {w : Units × List UInt8} (hw : w ∈ writes) (files : Files) :
    writeFiles files writes w.1 = some w.2 := by
  induction writes generalizing files with
  | nil => cases hw
  | cons v writes ih =>
    rw [List.map_cons,List.nodup_cons] at h
    rw [writeFiles,List.foldl_cons,← writeFiles]
    rcases List.mem_cons.mp hw with rfl | hw
    · rw [writeFiles_of_notMem h.1,Function.update_self]
    · exact ih h.2 hw _

/-! ## Reading media back -/

theorem float32Array_bytes (data : List UInt32) : float32Array (float32Bytes data) = some data := by
  have hlength := Bytes.length_flatMap_wordBytes data
  rw [float32Array,float32Bytes,if_pos (by omega),Bytes.words_flatMap]

/-- The stored attachments are those, one by one. -/
def Reads {α : Type*} (make : List UInt32 → Value → Option α) : List Stored → List α → Prop :=
  List.Forall₂ (fun m a => make m.data m.info = some a ∧ Valid m.info)

theorem loadMedia_files {α : Type*} {make : List UInt32 → Value → Option α} {kind : MediaKind}
    {media : List Stored} {as : List α} (h : Reads make media as) {files : Files} {n : ℕ}
    (hfiles : ∀ w ∈ mediaFiles kind n media, files w.1 = some w.2) :
    loadMedia (readMedia files kind make) as.length n = (as,false) := by
  induction h generalizing n with
  | nil => rfl
  | @cons m a media as hm hrest ih =>
    rw [mediaFiles,List.forall_mem_cons,List.forall_mem_cons] at hfiles
    have hread : readMedia files kind make n = .media a := by
      rw [readMedia,hfiles.2.1,hfiles.1,Option.bind_some,Json.ofBytes_toBytes hm.2]
      simp only [float32Array_bytes,hm.1,Option.elim_some]
    rw [List.length_cons,loadMedia,hread]
    simp only [ih hfiles.2.2]
    rfl

theorem asImage_stored {im : ImageAttachment} {m : Stored} (h : im.stored = some m) :
    asImage m.data m.info = some im ∧ Valid m.info := by
  obtain ⟨pixels,hpixels,rfl⟩ := Option.map_eq_some_iff.mp h
  constructor
  · rw [asImage]
    refine Option.bind_eq_some_iff.mpr ⟨_,rfl,?_⟩
    refine Option.bind_eq_some_iff.mpr ⟨im.h,asNum_json im.h,?_⟩
    refine Option.bind_eq_some_iff.mpr ⟨im.w,asNum_json im.w,?_⟩
    refine Option.bind_eq_some_iff.mpr ⟨im.dataUrl,rfl,?_⟩
    rw [← hpixels]
    rfl
  · refine ⟨?_,im.h.valid,im.w.valid,trivial,trivial⟩
    change (["h","w","dataUrl"].map units).Nodup
    decide

theorem reads_images (ims : List ImageAttachment) :
    Reads asImage (ims.filterMap ImageAttachment.stored)
      (ims.filter (fun im => im.pixels.isSome)) := by
  induction ims with
  | nil => exact .nil
  | cons im ims ih =>
    cases hpixels : im.pixels with
    | none =>
      have hnone : im.stored = none := by rw [ImageAttachment.stored,hpixels]; rfl
      rw [List.filterMap_cons_none hnone,List.filter_cons_of_neg (by rw [hpixels]; decide)]
      exact ih
    | some pixels =>
      have hsome : im.stored.isSome := by rw [ImageAttachment.stored,hpixels]; rfl
      obtain ⟨m,hm⟩ := Option.isSome_iff_exists.mp hsome
      rw [List.filterMap_cons_some hm,List.filter_cons_of_pos (by rw [hpixels]; rfl)]
      exact .cons (asImage_stored hm) ih

theorem reads_audio (clips : List AudioClip) :
    Reads asAudio (clips.map AudioClip.stored) clips := by
  induction clips with
  | nil => exact .nil
  | cons a clips ih =>
    refine .cons ⟨?_,?_,a.durationMs.valid,trivial⟩ ih
    · rw [asAudio]
      refine Option.bind_eq_some_iff.mpr ⟨_,rfl,?_⟩
      exact Option.bind_eq_some_iff.mpr ⟨a.durationMs,asNum_json a.durationMs,rfl⟩
    · exact List.nodup_singleton _

variable {separators : Units} {root : Option QueueDir} {j : GenJob Message}

/-- The files of a job are in its directory. -/
def Keeps (root : Option QueueDir) (j : GenJob Message) : Prop :=
  jobFiles j ≠ [] → ∃ dir files, root = some dir ∧ dir j.jobId = some (.directory files) ∧
    ∀ w ∈ jobFiles j, files w.1 = some w.2

theorem loadJobMedia_kept {dir : QueueDir} (hname : IsFileName separators j.jobId)
    (h : Keeps (some dir) j) : loadJobMedia separators dir (toPersisted j) =
      (j.images.filter (fun im => im.pixels.isSome),j.audio) := by
  have hcount : (j.images.filterMap ImageAttachment.stored).length =
      (j.images.filter (fun im => im.pixels.isSome)).length :=
    (reads_images j.images).length_eq
  by_cases hfiles : jobFiles j = []
  · -- no loop over the media makes a turn
    obtain ⟨himages,haudio⟩ := List.append_eq_nil_iff.mp hfiles
    have hnone : ∀ {kind n media}, mediaFiles kind n media = [] → media = [] := by
      intro kind n media hmedia
      cases media with
      | nil => rfl
      | cons m media => cases hmedia
    have hno := hnone himages
    have hsilent : j.audio = [] := List.map_eq_nil_iff.mp (hnone haudio)
    rw [hno,List.length_nil] at hcount
    have hempty := List.length_eq_zero_iff.mp hcount.symm
    rw [loadJobMedia,toPersisted,hempty,hsilent]
    dsimp only
    cases getDirectory separators dir j.jobId false <;> rfl
  · obtain ⟨_,files,hdir,hentry,hwritten⟩ := h hfiles
    cases hdir
    have hopen : getDirectory separators dir j.jobId false = some files := by
      rw [getDirectory,if_pos hname,hentry]
    rw [jobFiles,List.forall_mem_append] at hwritten
    have himages := loadMedia_files (reads_images j.images) hwritten.1
    have haudio := loadMedia_files (reads_audio j.audio) hwritten.2
    rw [loadJobMedia,toPersisted]
    dsimp only
    rw [hopen]
    dsimp only
    rw [himages,haudio]
    rfl

theorem loadJob_kept {dir : QueueDir} (hname : IsFileName separators j.jobId)
    (h : Keeps (some dir) j) : loadJob separators dir (toPersisted j) = restored j := by
  rw [loadJob,loadJobMedia_kept hname h]
  rfl

/-! ## What the store has -/

/-- These jobs can be loaded. -/
def Stores (root : Option QueueDir) (jobs : List (GenJob Message)) : Prop :=
  (∀ j ∈ jobs, Keeps root j) ∧
    match root with
    | none => jobs = []
    | some dir => dir manifestName = some (.file (toBytes (manifestJson (jobs.map toPersisted))))

theorem loadQueue_stored {jobs : List (GenJob Message)} (h : Stores root jobs)
    (hnames : ∀ j ∈ jobs, IsFileName separators j.jobId) :
    loadQueue separators root = some (jobs.map restored) := by
  obtain ⟨hkeeps,hmanifest⟩ := h
  cases root with
  | none =>
    dsimp only at hmanifest
    rw [hmanifest]
    rfl
  | some dir =>
    dsimp only at hmanifest
    rw [loadQueue]
    simp only [hmanifest,Json.ofBytes_toBytes (valid_manifestJson _),asManifest_json,Option.map_some,
      List.map_map]
    refine congrArg some (List.map_congr_left fun j hj => ?_)
    exact loadJob_kept (hnames j hj) (hkeeps j hj)

/-- Where the manifest is a file, if it is there at all. -/
def NoDirectory (root : Option QueueDir) : Prop :=
  ∀ dir files, root = some dir → dir manifestName ≠ some (.directory files)

theorem Stores.noDirectory {jobs : List (GenJob Message)} (h : Stores root jobs) :
    NoDirectory root := by
  rintro dir files rfl heq
  have hmanifest : dir manifestName = _ := h.2
  rw [hmanifest] at heq
  cases heq

theorem writeManifest_self {dir : QueueDir} (h : ∀ files, dir manifestName ≠ some (.directory files))
    (bytes : List UInt8) :
    writeManifest dir bytes = Function.update dir manifestName (some (.file bytes)) := by
  rw [writeManifest]
  split
  · rename_i files heq
    exact absurd heq (h files)
  · rfl

theorem stores_persistQueue {jobs : List (GenJob Message)} (hroot : NoDirectory root)
    (hnames : ∀ j ∈ jobs, j.jobId ≠ manifestName) (hkeeps : ∀ j ∈ jobs, Keeps root j) :
    Stores (persistQueue root jobs) jobs := by
  have hno : ∀ files, (root.getD (fun _ => none)) manifestName ≠ some (.directory files) := by
    intro files
    cases root with
    | none => exact nofun
    | some dir => exact hroot dir files rfl
  rw [persistQueue,writeManifest_self hno]
  refine ⟨fun j hj hfiles => ?_,Function.update_self ..⟩
  obtain ⟨dir,files,rfl,hentry,hwritten⟩ := hkeeps j hj hfiles
  refine ⟨_,files,rfl,?_,hwritten⟩
  rw [Function.update_of_ne (hnames j hj)]
  exact hentry

/-! ## Saving and dropping media -/

theorem jobFiles_eq_nil_iff (job : GenJob Message) : jobFiles job = [] ↔
    (job.images.all (fun im => im.pixels.isNone) && job.audio.isEmpty) = true := by
  have hnil : ∀ kind n media, mediaFiles kind n media = [] ↔ media = [] := by
    intro kind n media
    cases media with
    | nil => exact iff_of_true rfl rfl
    | cons m media => exact iff_of_false nofun nofun
  rw [jobFiles,List.append_eq_nil_iff,hnil,hnil,List.map_eq_nil_iff,List.filterMap_eq_nil_iff,
    Bool.and_eq_true,List.all_eq_true,List.isEmpty_iff]
  refine and_congr (forall₂_congr fun im _ => ?_) Iff.rfl
  rw [ImageAttachment.stored,Option.map_eq_none_iff,Option.isNone_iff_eq_none]

theorem keeps_saveJobMedia {job : GenJob Message} (hname : IsFileName separators job.jobId)
    (hnew : ∀ dir, root = some dir → dir job.jobId = none) :
    Keeps (saveJobMedia separators root job) job := by
  intro hfiles
  have hmedia := mt (jobFiles_eq_nil_iff job).mpr hfiles
  have hopen : getDirectory separators (root.getD (fun _ => none)) job.jobId true =
      some (fun _ => none) := by
    have hnone : (root.getD (fun _ => none)) job.jobId = none := by
      cases root with
      | none => rfl
      | some dir => exact hnew dir rfl
    rw [getDirectory,if_pos hname,hnone]
    rfl
  rw [saveJobMedia,if_neg hmedia]
  dsimp only
  rw [hopen]
  exact ⟨_,_,rfl,Function.update_self ..,
    fun w hw => writeFiles_of_mem (nodup_jobFiles job) hw _⟩

theorem Keeps.saveJobMedia {job : GenJob Message} (h : Keeps root j) (hne : j.jobId ≠ job.jobId) :
    Keeps (saveJobMedia separators root job) j := by
  intro hfiles
  obtain ⟨dir,files,rfl,hentry,hwritten⟩ := h hfiles
  rw [Web.saveJobMedia]
  split
  · exact ⟨dir,files,rfl,hentry,hwritten⟩
  · dsimp only [Option.getD_some]
    split
    · exact ⟨dir,files,rfl,hentry,hwritten⟩
    · exact ⟨_,files,rfl,(Function.update_of_ne hne ..).trans hentry,hwritten⟩

theorem NoDirectory.saveJobMedia {job : GenJob Message} (h : NoDirectory root)
    (hne : job.jobId ≠ manifestName) : NoDirectory (saveJobMedia separators root job) := by
  have hno : ∀ files, (root.getD (fun _ => none)) manifestName ≠ some (.directory files) := by
    intro files
    cases root with
    | none => exact nofun
    | some dir => exact h dir files rfl
  rw [Web.saveJobMedia]
  split
  · exact h
  · dsimp only
    split
    · rintro dir files ⟨⟩
      exact hno files
    · rintro dir files ⟨⟩
      rw [Function.update_of_ne hne.symm]
      exact hno files

theorem Stores.dropJobMedia {jobs : List (GenJob Message)} (h : Stores root jobs) {jobId : Units}
    (hmanifest : jobId ≠ manifestName) (hjobs : ∀ j ∈ jobs, j.jobId ≠ jobId) :
    Stores (dropJobMedia separators root jobId) jobs := by
  cases root with
  | none => exact h
  | some dir =>
    rw [Web.dropJobMedia,Option.map_some]
    split
    · refine ⟨fun j hj hfiles => ?_,(Function.update_of_ne hmanifest.symm ..).trans h.2⟩
      obtain ⟨_,files,hdir,hentry,hwritten⟩ := h.1 j hj hfiles
      cases hdir
      exact ⟨_,files,rfl,(Function.update_of_ne (hjobs j hj) ..).trans hentry,hwritten⟩
    · exact h

/-! ## Runs -/

/-- The jobs have their own names, and the store has those that wait. -/
structure Inv (separators : Units) (s : QueueState Message) : Prop where
  ids : (s.queue.map GenJob.jobId).Nodup
  names : ∀ j ∈ s.queue, IsFileName separators j.jobId ∧ j.jobId ≠ manifestName
  stores : Stores s.root (waiting s.queue)

variable {s : QueueState Message}

theorem mem_waiting {queue : List (GenJob Message)} :
    j ∈ waiting queue ↔ j ∈ queue ∧ j.status = .queued := by
  rw [waiting,List.mem_filter,decide_eq_true_eq]

theorem inv_commitQueue {next : List (GenJob Message)} (hids : (next.map GenJob.jobId).Nodup)
    (hnames : ∀ j ∈ next, IsFileName separators j.jobId ∧ j.jobId ≠ manifestName)
    (hroot : NoDirectory s.root) (hkeeps : ∀ j ∈ waiting next, Keeps s.root j) :
    Inv separators (commitQueue s next) := by
  refine ⟨hids,hnames,stores_persistQueue hroot (fun j hj => ?_) hkeeps⟩
  exact (hnames j (mem_waiting.mp hj).1).2

theorem Inv.send (h : Inv separators s) {job : GenJob Message}
    (henabled : (QueueEvent.send job).enabled separators s) :
    Inv separators ((QueueEvent.send job).next separators s) := by
  obtain ⟨hqueued,hname,hmanifest,hid,hnew⟩ := henabled
  refine inv_commitQueue ?_ ?_ (h.stores.noDirectory.saveJobMedia hmanifest) ?_
  · rw [List.map_append,List.nodup_append]
    refine ⟨h.ids,List.nodup_singleton _,?_⟩
    rintro id hold _ hid' rfl
    exact hid (List.mem_singleton.mp hid' ▸ hold)
  · exact List.forall_mem_append.mpr ⟨h.names,List.forall_mem_singleton.mpr ⟨hname,hmanifest⟩⟩
  · intro j hj
    rw [waiting,List.filter_append,List.mem_append,← waiting] at hj
    rcases hj with hj | hj
    · refine (h.stores.1 j hj).saveJobMedia fun heq => hid ?_
      exact heq ▸ List.mem_map_of_mem (mem_waiting.mp hj).1
    · cases List.mem_singleton.mp (List.mem_filter.mp hj).1
      exact keeps_saveJobMedia hname hnew

theorem Inv.start (h : Inv separators s) :
    Inv separators (QueueEvent.start.next separators s) := by
  rw [QueueEvent.next]
  split
  · exact h
  · rename_i job _
    have hid : ∀ j : GenJob Message,
        (if j.jobId = job.jobId then { j with status := .running } else j).jobId = j.jobId := by
      intro j
      split <;> rfl
    refine inv_commitQueue ?_ ?_ h.stores.noDirectory ?_
    · rw [List.map_map]
      have hsame := List.map_congr_left (l := s.queue) (fun j _ => hid j)
      exact hsame ▸ h.ids
    · intro j hj
      obtain ⟨i,hi,rfl⟩ := List.mem_map.mp hj
      rw [hid]
      exact h.names i hi
    · intro j hj
      obtain ⟨hj,hqueued⟩ := mem_waiting.mp hj
      obtain ⟨i,hi,rfl⟩ := List.mem_map.mp hj
      split at hqueued
      · cases hqueued
      · rename_i hne
        rw [if_neg hne]
        exact h.stores.1 i (mem_waiting.mpr ⟨hi,hqueued⟩)

theorem Inv.remove (h : Inv separators s) {jobId : Units} (hid : jobId ≠ manifestName) :
    let t := commitQueue s (s.queue.filter (fun j => j.jobId ≠ jobId))
    Inv separators ⟨t.queue,dropJobMedia separators t.root jobId⟩ := by
  intro t
  have hsub : (s.queue.filter (fun j => j.jobId ≠ jobId)).Sublist s.queue := List.filter_sublist
  have hcommit : Inv separators t := by
    refine inv_commitQueue (h.ids.sublist (hsub.map _)) (fun j hj => h.names j (hsub.subset hj))
      h.stores.noDirectory (fun j hj => ?_)
    obtain ⟨hj,hqueued⟩ := mem_waiting.mp hj
    exact h.stores.1 j (mem_waiting.mpr ⟨hsub.subset hj,hqueued⟩)
  refine ⟨hcommit.ids,hcommit.names,hcommit.stores.dropJobMedia hid fun j hj => ?_⟩
  exact of_decide_eq_true (List.mem_filter.mp (mem_waiting.mp hj).1).2

/-- After a reload the jobs are written as they were. -/
theorem toPersisted_restored (j : GenJob Message) : toPersisted (restored j) = toPersisted j := by
  have hfilter : (j.images.filter (fun im => im.pixels.isSome)).filter
      (fun im => im.pixels.isSome) = j.images.filter (fun im => im.pixels.isSome) := by
    rw [List.filter_filter]
    simp only [Bool.and_self]
  rw [toPersisted,restored,toPersisted]
  simp only [hfilter]

theorem jobFiles_restored (j : GenJob Message) : jobFiles (restored j) = jobFiles j := by
  have hstored : (j.images.filter (fun im => im.pixels.isSome)).filterMap ImageAttachment.stored =
      j.images.filterMap ImageAttachment.stored := by
    rw [List.filterMap_filter]
    refine List.filterMap_congr fun im _ => ?_
    cases hpixels : im.pixels with
    | none => rw [ImageAttachment.stored,hpixels]; rfl
    | some pixels => rfl
  rw [jobFiles,restored,hstored]
  rfl

theorem Inv.reload (h : Inv separators s) {digest : Units} {convIds : List Units}
    (henabled : (QueueEvent.reload digest convIds).enabled separators s) :
    Inv separators ((QueueEvent.reload digest convIds).next separators s) ∧
      ((QueueEvent.reload digest convIds).next separators s).queue =
        (waiting s.queue).map restored := by
  have hnames : ∀ j ∈ waiting s.queue, IsFileName separators j.jobId :=
    fun j hj => (h.names j (mem_waiting.mp hj).1).1
  have hload := loadQueue_stored h.stores hnames
  have hall : ∀ j ∈ (waiting s.queue).map restored, Resumable digest convIds j := by
    intro j hj
    obtain ⟨i,hi,rfl⟩ := List.mem_map.mp hj
    exact henabled i hi
  have hgone : ((waiting s.queue).map restored).filter (fun j =>
      (j.modelDigest = [] ∨ digest = [] ∨ j.modelDigest = digest) &&
        !convIds.contains j.convId) = [] := by
    rw [List.filter_eq_nil_iff]
    intro j hj
    rw [List.contains_iff_mem.mpr (hall j hj).2,Bool.not_true,Bool.and_false]
    exact Bool.false_ne_true
  have hvalid : ((waiting s.queue).map restored).filter (fun j => Resumable digest convIds j) =
      (waiting s.queue).map restored :=
    List.filter_eq_self.mpr (fun j hj => decide_eq_true (hall j hj))
  rw [QueueEvent.next,bootQueue,hload]
  simp only [hgone,hvalid,List.foldl_nil]
  cases hqueue : waiting s.queue with
  | nil =>
    have hstores := h.stores
    rw [hqueue] at hstores
    exact ⟨⟨List.nodup_nil,List.forall_mem_nil _,hstores⟩,rfl⟩
  | cons j jobs =>
    refine ⟨?_,rfl⟩
    change Inv separators (commitQueue ⟨[],s.root⟩ ((j :: jobs).map restored))
    rw [← hqueue]
    refine inv_commitQueue ?_ ?_ h.stores.noDirectory ?_
    · rw [List.map_map]
      exact h.ids.sublist (List.filter_sublist.map _)
    · intro k hk
      obtain ⟨i,hi,rfl⟩ := List.mem_map.mp hk
      exact h.names i (mem_waiting.mp hi).1
    · intro k hk
      obtain ⟨i,hi,rfl⟩ := List.mem_map.mp (mem_waiting.mp hk).1
      have hkeeps := h.stores.1 i hi
      rw [Keeps,jobFiles_restored]
      exact hkeeps

theorem Inv.next (h : Inv separators s) (e : QueueEvent Message)
    (henabled : e.enabled separators s) : Inv separators (e.next separators s) := by
  cases e with
  | send job => exact h.send henabled
  | start => exact h.start
  | finish jobId =>
    obtain ⟨j,hj,rfl,_⟩ := henabled
    exact h.remove (h.names j hj).2
  | dequeue jobId =>
    obtain ⟨j,hj,rfl,_⟩ := henabled
    exact h.remove (h.names j hj).2
  | dropRunning jobId =>
    obtain ⟨j,hj,rfl,hrunning⟩ := henabled
    refine ⟨h.ids,h.names,h.stores.dropJobMedia (h.names j hj).2 fun i hi heq => ?_⟩
    obtain ⟨hi,hqueued⟩ := mem_waiting.mp hi
    cases List.inj_on_of_nodup_map h.ids hi hj heq
    rw [hrunning] at hqueued
    cases hqueued
  | reload digest convIds => exact (h.reload henabled).1

/-- In every run from an empty queue, what is stored loads as the jobs that wait, in order and
with all that was attached to them in the session, and a reload goes on with them. -/
theorem loadQueue_of_reachable {s : QueueState Message}
    (h : (queueMachine Message separators).Reachable ⟨[],none⟩ s) :
    loadQueue separators s.root = some ((waiting s.queue).map restored) ∧
      ∀ digest convIds, (QueueEvent.reload digest convIds).enabled separators s →
        ((QueueEvent.reload digest convIds).next separators s).queue =
          (waiting s.queue).map restored := by
  have hinit : Inv separators (⟨[],none⟩ : QueueState Message) :=
    ⟨List.nodup_nil,List.forall_mem_nil _,List.forall_mem_nil _,rfl⟩
  have hinv : Inv separators s := h.invariant (fun s e hs he => hs.next e he) hinit
  have hnames : ∀ j ∈ waiting s.queue, IsFileName separators j.jobId :=
    fun j hj => (hinv.names j (mem_waiting.mp hj).1).1
  exact ⟨loadQueue_stored hinv.stores hnames,fun _ _ henabled => (hinv.reload henabled).2⟩

def one : Num := ⟨units "1",by decide⟩

/-- A job with one pixel, a clip of two samples and a text with a quote and a line break. -/
def spokenQuestion : GenJob Units where
  jobId := units "job-1"
  convId := units "c"
  modelMsgId := units "m"
  userText := units "What is \"this\"?\n"
  createdAt := one
  priorFromDb := false
  priorMessages := [units "Hello"]
  sysContent := []
  sampling := ⟨one,one,one,one,one⟩
  maxTokens := one
  thinking := true
  toolMode := false
  weatherApiKey := []
  newsApiKey := []
  weatherUnits := .metric
  orchestratorMode := true
  diffusion := false
  cloud := some ⟨.openai,units "gpt"⟩
  modelDigest := units "d"
  images := [⟨some [0x3F800000],one,one,units "data:"⟩,⟨none,one,one,[]⟩]
  audio := [⟨[0,0x80000000],one⟩]
  status := .queued

theorem spokenQuestion_loads :
    let s := (QueueEvent.send spokenQuestion).next [unit '/'] ⟨[],none⟩
    loadQueue [unit '/'] s.root = some ((waiting s.queue).map restored) ∧
      ∀ digest convIds, (QueueEvent.reload digest convIds).enabled [unit '/'] s →
        ((QueueEvent.reload digest convIds).next [unit '/'] s).queue =
          (waiting s.queue).map restored := by
  have henabled : (QueueEvent.send spokenQuestion).enabled [unit '/'] ⟨[],none⟩ :=
    ⟨rfl,by decide,by decide,List.not_mem_nil,nofun⟩
  have hstart : (queueMachine Units [unit '/']).Reachable ⟨[],none⟩ ⟨[],none⟩ :=
    Machine.Reachable.refl _ _
  have hsent : (queueMachine Units [unit '/']).Reachable ⟨[],none⟩
      ((queueMachine Units [unit '/']).next ⟨[],none⟩ (.send spokenQuestion)) :=
    hstart.next henabled
  exact loadQueue_of_reachable hsent

end Rullama.Web
