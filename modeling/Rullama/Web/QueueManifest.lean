import Rullama.Text.Stringify
import Rullama.Text.JsonBytes

/-! # The manifest of the queue

What is kept of a job that waits is an object of JSON, and a list of such jobs is read back as it
was written.
-/
namespace Rullama.Web
open Text
open Text.Json (Value Valid ValidFields ValidItems)

/-! ## Jobs -/

/-- A finite number, by the text that it has in JSON. -/
structure Num where
  literal : Units
  valid : Valid (.number literal)

inductive ToolUnits where
  | metric
  | imperial
  deriving DecidableEq

inductive CloudProvider where
  | ollama
  | openai
  deriving DecidableEq

structure Cloud where
  provider : CloudProvider
  model : Units

structure SamplingOptions where
  temperature : Num
  topK : Num
  topP : Num
  repetitionPenalty : Num
  seed : Num

/-- The pixels are there only where the image was attached in this session. -/
structure ImageAttachment where
  pixels : Option (List UInt32)
  h : Num
  w : Num
  dataUrl : Units

structure AudioClip where
  pcm : List UInt32
  durationMs : Num

inductive JobStatus where
  | queued
  | running
  deriving DecidableEq

structure GenJob (Message : Type*) where
  jobId : Units
  convId : Units
  modelMsgId : Units
  userText : Units
  createdAt : Num
  priorFromDb : Bool
  priorMessages : List Message
  sysContent : Units
  sampling : SamplingOptions
  maxTokens : Num
  thinking : Bool
  toolMode : Bool
  weatherApiKey : Units
  newsApiKey : Units
  weatherUnits : ToolUnits
  orchestratorMode : Bool
  diffusion : Bool
  cloud : Option Cloud
  modelDigest : Units
  images : List ImageAttachment
  audio : List AudioClip
  status : JobStatus

/-- Manifests that were written before they had the two options are read too. -/
structure PersistedJob where
  jobId : Units
  convId : Units
  modelMsgId : Units
  userText : Units
  createdAt : Num
  sysContent : Units
  sampling : SamplingOptions
  maxTokens : Num
  thinking : Bool
  toolMode : Bool
  weatherApiKey : Units
  newsApiKey : Option Units
  weatherUnits : ToolUnits
  orchestratorMode : Option Bool
  diffusion : Bool
  cloud : Option Cloud
  modelDigest : Units
  nImages : ℕ
  nAudio : ℕ

variable {Message : Type*}

def toPersisted (j : GenJob Message) : PersistedJob where
  jobId := j.jobId
  convId := j.convId
  modelMsgId := j.modelMsgId
  userText := j.userText
  createdAt := j.createdAt
  sysContent := j.sysContent
  sampling := j.sampling
  maxTokens := j.maxTokens
  thinking := j.thinking
  toolMode := j.toolMode
  weatherApiKey := j.weatherApiKey
  newsApiKey := some j.newsApiKey
  weatherUnits := j.weatherUnits
  orchestratorMode := some j.orchestratorMode
  diffusion := j.diffusion
  cloud := j.cloud
  modelDigest := j.modelDigest
  nImages := (j.images.filter (fun im => im.pixels.isSome)).length
  nAudio := j.audio.length

/-! ## The manifest in JSON -/

def ToolUnits.text : ToolUnits → Units
  | .metric => units "metric"
  | .imperial => units "imperial"

def CloudProvider.text : CloudProvider → Units
  | .ollama => units "ollama"
  | .openai => units "openai"

def Num.json (x : Num) : Value := .number x.literal

def countJson (n : ℕ) : Value := .number (decimal n)

def Cloud.json (c : Cloud) : Value :=
  .object [(units "provider",.string c.provider.text),(units "model",.string c.model)]

def SamplingOptions.json (s : SamplingOptions) : Value :=
  .object [(units "temperature",s.temperature.json),(units "top_k",s.topK.json),
    (units "top_p",s.topP.json),(units "repetition_penalty",s.repetitionPenalty.json),
    (units "seed",s.seed.json)]

/-- A property that is undefined is left out. -/
def optional (key : Units) (v : Option Value) : List (Units × Value) :=
  v.toList.map (fun v => (key,v))

def PersistedJob.fields (p : PersistedJob) : List (Units × Value) :=
  [(units "jobId",.string p.jobId),(units "convId",.string p.convId),
    (units "modelMsgId",.string p.modelMsgId),(units "userText",.string p.userText),
    (units "createdAt",p.createdAt.json),(units "sysContent",.string p.sysContent),
    (units "sampling",p.sampling.json),(units "maxTokens",p.maxTokens.json),
    (units "thinking",.bool p.thinking),(units "toolMode",.bool p.toolMode),
    (units "weatherApiKey",.string p.weatherApiKey)] ++
  (optional (units "newsApiKey") (p.newsApiKey.map .string) ++
  ((units "weatherUnits",.string p.weatherUnits.text) ::
  (optional (units "orchestratorMode") (p.orchestratorMode.map .bool) ++
  ((units "diffusion",.bool p.diffusion) ::
  (optional (units "cloud") (p.cloud.map Cloud.json) ++
    [(units "modelDigest",.string p.modelDigest),(units "nImages",countJson p.nImages),
      (units "nAudio",countJson p.nAudio)])))))

def PersistedJob.json (p : PersistedJob) : Value := .object p.fields

/-! Reading back what has these types, and nothing where it has not. -/

def asString : Value → Option Units
  | .string s => some s
  | _ => none

def asBool : Value → Option Bool
  | .bool b => some b
  | _ => none

instance (literal : Units) : Decidable (Valid (.number literal)) :=
  inferInstanceAs (Decidable (_ ∧ _))

def asNum : Value → Option Num
  | .number literal => if h : Valid (.number literal) then some ⟨literal,h⟩ else none
  | _ => none

def asCount : Value → Option ℕ
  | .number literal => if literal.all isDigit then some (ofDecimal literal) else none
  | _ => none

def asUnits (v : Value) : Option ToolUnits :=
  (asString v).bind (fun s => [ToolUnits.metric,.imperial].find? (fun u => u.text = s))

def asProvider (v : Value) : Option CloudProvider :=
  (asString v).bind (fun s => [CloudProvider.ollama,.openai].find? (fun p => p.text = s))

def asObject : Value → Option (List (Units × Value))
  | .object fields => some fields
  | _ => none

/-- A property of this type. -/
def property {α : Type*} (read : Value → Option α) (key : String)
    (fields : List (Units × Value)) : Option α := (fields.lookup (units key)).bind read

/-- A property that can be left out. -/
def optionalProperty {α : Type*} (read : Value → Option α) (key : String)
    (fields : List (Units × Value)) : Option (Option α) :=
  match fields.lookup (units key) with
  | none => some none
  | some v => (read v).map some

def asCloud (v : Value) : Option Cloud := do
  let fields ← asObject v
  return { provider := ← property asProvider "provider" fields
           model := ← property asString "model" fields }

def asSampling (v : Value) : Option SamplingOptions := do
  let fields ← asObject v
  return { temperature := ← property asNum "temperature" fields
           topK := ← property asNum "top_k" fields
           topP := ← property asNum "top_p" fields
           repetitionPenalty := ← property asNum "repetition_penalty" fields
           seed := ← property asNum "seed" fields }

def asPersisted (v : Value) : Option PersistedJob := do
  let fields ← asObject v
  return { jobId := ← property asString "jobId" fields
           convId := ← property asString "convId" fields
           modelMsgId := ← property asString "modelMsgId" fields
           userText := ← property asString "userText" fields
           createdAt := ← property asNum "createdAt" fields
           sysContent := ← property asString "sysContent" fields
           sampling := ← property asSampling "sampling" fields
           maxTokens := ← property asNum "maxTokens" fields
           thinking := ← property asBool "thinking" fields
           toolMode := ← property asBool "toolMode" fields
           weatherApiKey := ← property asString "weatherApiKey" fields
           newsApiKey := ← optionalProperty asString "newsApiKey" fields
           weatherUnits := ← property asUnits "weatherUnits" fields
           orchestratorMode := ← optionalProperty asBool "orchestratorMode" fields
           diffusion := ← property asBool "diffusion" fields
           cloud := ← optionalProperty asCloud "cloud" fields
           modelDigest := ← property asString "modelDigest" fields
           nImages := ← property asCount "nImages" fields
           nAudio := ← property asCount "nAudio" fields }

theorem asNum_json (x : Num) : asNum x.json = some x := by
  rw [Num.json,asNum,dif_pos x.valid]

theorem asCount_json (n : ℕ) : asCount (countJson n) = some n := by
  have hall : (decimal n).all isDigit = true :=
    List.all_eq_true.mpr (fun c hc => isDigit_of_mem_decimal hc)
  rw [countJson,asCount,if_pos hall,ofDecimal_decimal]

theorem asUnits_text (u : ToolUnits) : asUnits (.string u.text) = some u := by
  cases u <;> rfl

theorem asProvider_text (p : CloudProvider) : asProvider (.string p.text) = some p := by
  cases p <;> rfl

section Lookup
variable {key k : Units} {v : Value} {fields : List (Units × Value)}

theorem lookup_hit : ((key,v) :: fields).lookup key = some v := by
  rw [List.lookup_cons,beq_self_eq_true]

theorem lookup_skip (h : key ≠ k) : ((k,v) :: fields).lookup key = fields.lookup key := by
  rw [List.lookup_cons,beq_eq_false_iff_ne.mpr h]

theorem lookup_optional_skip (h : key ≠ k) (v : Option Value) :
    (optional k v ++ fields).lookup key = fields.lookup key := by
  cases v with
  | none => rfl
  | some v => exact lookup_skip h

theorem lookup_optional_hit (v : Option Value) (h : fields.lookup key = none) :
    (optional key v ++ fields).lookup key = v := by
  cases v with
  | none => exact h
  | some v => exact lookup_hit

end Lookup

theorem asCloud_json (c : Cloud) : asCloud c.json = some c := by
  rw [Cloud.json,asCloud,asObject]
  simp (disch := decide) only [Option.bind_eq_bind,Option.bind_some,property,lookup_hit,lookup_skip,
    asProvider_text,asString]
  rfl

theorem asSampling_json (s : SamplingOptions) : asSampling s.json = some s := by
  rw [SamplingOptions.json,asSampling,asObject]
  simp (disch := decide) only [Option.bind_eq_bind,Option.bind_some,property,lookup_hit,lookup_skip,
    asNum_json]
  rfl

theorem optionalProperty_map {α : Type*} {read : Value → Option α} (write : α → Value)
    (h : ∀ a, read (write a) = some a) {key : String} {fields : List (Units × Value)} {a : Option α}
    (hlookup : fields.lookup (units key) = a.map write) :
    optionalProperty read key fields = some a := by
  rw [optionalProperty,hlookup]
  cases a with
  | none => rfl
  | some a => exact congrArg (Option.map some) (h a)

theorem keys_optional (key : Units) (v : Option Value) :
    ((optional key v).map Prod.fst).Sublist [key] := by
  cases v with
  | none => exact List.nil_sublist _
  | some v => exact List.Sublist.refl _

theorem nodup_fields (p : PersistedJob) : (p.fields.map Prod.fst).Nodup := by
  have hkeys : (["jobId","convId","modelMsgId","userText","createdAt","sysContent","sampling",
      "maxTokens","thinking","toolMode","weatherApiKey","newsApiKey","weatherUnits",
      "orchestratorMode","diffusion","cloud","modelDigest","nImages","nAudio"].map units).Nodup := by
    decide
  refine hkeys.sublist ?_
  simp only [PersistedJob.fields,List.map_append,List.map_cons (f := Prod.fst)]
  exact (List.Sublist.refl _).append ((keys_optional _ _).append (.cons_cons _
    ((keys_optional _ _).append (.cons_cons _ ((keys_optional _ _).append (List.Sublist.refl _))))))

theorem lookup_of_mem {fields : List (Units × Value)} (h : (fields.map Prod.fst).Nodup)
    {f : Units × Value} (hf : f ∈ fields) : fields.lookup f.1 = some f.2 := by
  induction fields with
  | nil => cases hf
  | cons g fields ih =>
    rw [List.map_cons,List.nodup_cons] at h
    rcases List.mem_cons.mp hf with rfl | hf
    · exact lookup_hit
    · rw [← ih h.2 hf]
      refine lookup_skip fun heq => h.1 ?_
      exact heq ▸ List.mem_map_of_mem hf

theorem property_of_mem {p : PersistedJob} {α : Type*} {read : Value → Option α} {key : String}
    {v : Value} {a : α} (hmem : (units key,v) ∈ p.fields) (hread : read v = some a) :
    property read key p.fields = some a := by
  rw [property,lookup_of_mem (nodup_fields p) hmem]
  exact hread

/-- What is written is the job that is read. -/
theorem asPersisted_json (p : PersistedJob) : asPersisted p.json = some p := by
  have hnews : optionalProperty asString "newsApiKey" p.fields = some p.newsApiKey := by
    refine optionalProperty_map .string (fun _ => rfl) ?_
    simp (disch := decide) only [PersistedJob.fields,List.cons_append,List.nil_append,lookup_skip]
    refine lookup_optional_hit _ ?_
    simp (disch := decide) only [lookup_skip,lookup_optional_skip]
    rfl
  have hmode : optionalProperty asBool "orchestratorMode" p.fields = some p.orchestratorMode := by
    refine optionalProperty_map .bool (fun _ => rfl) ?_
    simp (disch := decide) only [PersistedJob.fields,List.cons_append,List.nil_append,lookup_skip,
      lookup_optional_skip]
    refine lookup_optional_hit _ ?_
    simp (disch := decide) only [lookup_skip,lookup_optional_skip]
    rfl
  have hcloud : optionalProperty asCloud "cloud" p.fields = some p.cloud := by
    refine optionalProperty_map Cloud.json asCloud_json ?_
    simp (disch := decide) only [PersistedJob.fields,List.cons_append,List.nil_append,lookup_skip,
      lookup_optional_skip]
    exact lookup_optional_hit _ rfl
  rw [PersistedJob.json,asPersisted]
  refine Option.bind_eq_some_iff.mpr ⟨p.fields,rfl,?_⟩
  refine Option.bind_eq_some_iff.mpr
    ⟨_,property_of_mem (v := .string p.jobId) (by simp [PersistedJob.fields]) rfl,?_⟩
  refine Option.bind_eq_some_iff.mpr
    ⟨_,property_of_mem (v := .string p.convId) (by simp [PersistedJob.fields]) rfl,?_⟩
  refine Option.bind_eq_some_iff.mpr
    ⟨_,property_of_mem (v := .string p.modelMsgId) (by simp [PersistedJob.fields]) rfl,?_⟩
  refine Option.bind_eq_some_iff.mpr
    ⟨_,property_of_mem (v := .string p.userText) (by simp [PersistedJob.fields]) rfl,?_⟩
  refine Option.bind_eq_some_iff.mpr
    ⟨_,property_of_mem (v := p.createdAt.json) (by simp [PersistedJob.fields]) (asNum_json _),?_⟩
  refine Option.bind_eq_some_iff.mpr
    ⟨_,property_of_mem (v := .string p.sysContent) (by simp [PersistedJob.fields]) rfl,?_⟩
  refine Option.bind_eq_some_iff.mpr
    ⟨_,property_of_mem (v := p.sampling.json) (by simp [PersistedJob.fields]) (asSampling_json _),?_⟩
  refine Option.bind_eq_some_iff.mpr
    ⟨_,property_of_mem (v := p.maxTokens.json) (by simp [PersistedJob.fields]) (asNum_json _),?_⟩
  refine Option.bind_eq_some_iff.mpr
    ⟨_,property_of_mem (v := .bool p.thinking) (by simp [PersistedJob.fields]) rfl,?_⟩
  refine Option.bind_eq_some_iff.mpr
    ⟨_,property_of_mem (v := .bool p.toolMode) (by simp [PersistedJob.fields]) rfl,?_⟩
  refine Option.bind_eq_some_iff.mpr
    ⟨_,property_of_mem (v := .string p.weatherApiKey) (by simp [PersistedJob.fields]) rfl,?_⟩
  refine Option.bind_eq_some_iff.mpr ⟨_,hnews,?_⟩
  refine Option.bind_eq_some_iff.mpr
    ⟨_,property_of_mem (v := .string p.weatherUnits.text) (by simp [PersistedJob.fields]) (asUnits_text _),?_⟩
  refine Option.bind_eq_some_iff.mpr ⟨_,hmode,?_⟩
  refine Option.bind_eq_some_iff.mpr
    ⟨_,property_of_mem (v := .bool p.diffusion) (by simp [PersistedJob.fields]) rfl,?_⟩
  refine Option.bind_eq_some_iff.mpr ⟨_,hcloud,?_⟩
  refine Option.bind_eq_some_iff.mpr
    ⟨_,property_of_mem (v := .string p.modelDigest) (by simp [PersistedJob.fields]) rfl,?_⟩
  refine Option.bind_eq_some_iff.mpr
    ⟨_,property_of_mem (v := countJson p.nImages) (by simp [PersistedJob.fields]) (asCount_json _),?_⟩
  refine Option.bind_eq_some_iff.mpr
    ⟨_,property_of_mem (v := countJson p.nAudio) (by simp [PersistedJob.fields]) (asCount_json _),?_⟩
  rfl

/-! ## What is written is JSON -/

theorem validFields_append {a b : List (Units × Value)} (ha : ValidFields a) (hb : ValidFields b) :
    ValidFields (a ++ b) := by
  induction a with
  | nil => exact hb
  | cons f a ih => exact ⟨ha.1,ih ha.2⟩

theorem validFields_optional (key : Units) {v : Option Value} (h : ∀ w, v = some w → Valid w) :
    ValidFields (optional key v) := by
  cases v with
  | none => trivial
  | some w => exact ⟨h w rfl,trivial⟩

theorem SamplingOptions.valid_json (s : SamplingOptions) : Valid s.json := by
  refine ⟨?_,s.temperature.valid,s.topK.valid,s.topP.valid,s.repetitionPenalty.valid,s.seed.valid,
    trivial⟩
  change (["temperature","top_k","top_p","repetition_penalty","seed"].map units).Nodup
  decide

theorem Cloud.valid_json (c : Cloud) : Valid c.json := by
  refine ⟨?_,trivial,trivial,trivial⟩
  change (["provider","model"].map units).Nodup
  decide

theorem PersistedJob.valid_json (p : PersistedJob) : Valid p.json := by
  have hstring : ∀ {s : Option Units} {w}, s.map Value.string = some w → Valid w := by
    intro s w hw
    obtain ⟨_,_,rfl⟩ := Option.map_eq_some_iff.mp hw
    trivial
  have hbool : ∀ {b : Option Bool} {w}, b.map Value.bool = some w → Valid w := by
    intro b w hw
    obtain ⟨_,_,rfl⟩ := Option.map_eq_some_iff.mp hw
    trivial
  have hcloud : ∀ {c : Option Cloud} {w}, c.map Cloud.json = some w → Valid w := by
    intro c w hw
    obtain ⟨c,_,rfl⟩ := Option.map_eq_some_iff.mp hw
    exact c.valid_json
  have hlast : ValidFields [(units "modelDigest",.string p.modelDigest),
      (units "nImages",countJson p.nImages),(units "nAudio",countJson p.nAudio)] :=
    ⟨trivial,valid_decimal p.nImages,valid_decimal p.nAudio,trivial⟩
  refine ⟨nodup_fields p,?_⟩
  refine validFields_append ⟨trivial,trivial,trivial,trivial,p.createdAt.valid,trivial,
    p.sampling.valid_json,p.maxTokens.valid,trivial,trivial,trivial,trivial⟩ ?_
  refine validFields_append (validFields_optional _ (fun _ => hstring)) ⟨trivial,?_⟩
  refine validFields_append (validFields_optional _ (fun _ => hbool)) ⟨trivial,?_⟩
  exact validFields_append (validFields_optional _ (fun _ => hcloud)) hlast

def manifestJson (jobs : List PersistedJob) : Value := .array (jobs.map PersistedJob.json)

/-- A manifest of such jobs, and nothing else. -/
def asManifest : Value → Option (List PersistedJob)
  | .array items => items.mapM asPersisted
  | _ => none

theorem valid_manifestJson (jobs : List PersistedJob) : Valid (manifestJson jobs) := by
  change ValidItems (jobs.map PersistedJob.json)
  induction jobs with
  | nil => trivial
  | cons p jobs ih => exact ⟨p.valid_json,ih⟩

theorem asManifest_json (jobs : List PersistedJob) : asManifest (manifestJson jobs) = some jobs := by
  change (jobs.map PersistedJob.json).mapM asPersisted = some jobs
  induction jobs with
  | nil => rfl
  | cons p jobs ih =>
    rw [List.map_cons,List.mapM_cons,asPersisted_json,ih]
    rfl

end Rullama.Web
