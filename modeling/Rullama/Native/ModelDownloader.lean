import Rullama.Opfs.Files
import Rullama.Transition.Machine

/-! # The native model downloader

A model is written to a file `.part`, from whose end a later call goes on, and the file gets the
name of the model when the body of the response has ended. The server answers with all of the
blob, with the rest of it, or with a refusal where nothing of it is left.
-/
namespace Rullama.Native

open Rullama.Opfs (Bytes)
open Rullama.Transition (Machine)

/-- The two files of a model. -/
structure ModelFiles where
  dest : Option Bytes := none
  part : Option Bytes := none
  deriving DecidableEq

structure Response where
  statusCode : ℕ
  content : Bytes
  deriving DecidableEq

/-- How the reads of a body end: one of them reads nothing, or fails. -/
inductive Ending
  | drained
  | broke
  deriving DecidableEq

/-- What a call meets: the response and what the reads of its body give. -/
structure Download where
  response : Response
  reads : List Bytes
  ending : Ending
  deriving DecidableEq

inductive Outcome
  | returned
  | thrown
  deriving DecidableEq

namespace ModelFiles

/-- The length of the `.part` file. -/
def have_ (s : ModelFiles) : ℕ := (s.part.map List.length).getD 0

/-- The start of the range that a call asks for. -/
def range (s : ModelFiles) : Option ℕ := if s.have_ > 0 then some s.have_ else none

def isPresent (size : ℕ) (s : ModelFiles) : Bool := s.dest.any (fun file => file.length = size)

end ModelFiles

namespace Response

def isSuccess (r : Response) : Bool := 200 ≤ r.statusCode && r.statusCode ≤ 299

def resumes (r : Response) (s : ModelFiles) : Bool := r.statusCode = 206 && s.have_ > 0

end Response

/-- The loop that writes what is read to the end of the file. -/
def copy (file : Bytes) : List Bytes → Bytes
  | [] => file
  | buf :: reads => copy (file ++ buf) reads

/-- `DownloadAsync` of a model of this size -/
def downloadAsync (size : ℕ) (s : ModelFiles) (d : Download) : ModelFiles × Outcome :=
  if s.isPresent size then (s,.returned)
  else if !d.response.isSuccess then (s,.thrown)
  else
    let opened := if d.response.resumes s then s.part.getD [] else []
    let written := copy opened d.reads
    match d.ending with
    | .broke => ({ s with part := some written },.thrown)
    | .drained => ({ dest := some written, part := none },.returned)

/-- The answers of a server that has this blob. -/
inductive Honest (blob : Bytes) : Option ℕ → Response → Prop
  | full {range} : Honest blob range ⟨200,blob⟩
  | rest {offset} : offset < blob.length → Honest blob (some offset) ⟨206,blob.drop offset⟩
  | refused {offset} : blob.length ≤ offset → Honest blob (some offset) ⟨416,[]⟩

/-- Calls one after the other. A body may break off after any of its reads. -/
def downloads (blob : Bytes) : Machine ModelFiles Download where
  enabled s d := Honest blob s.range d.response ∧ d.reads.flatten <+: d.response.content
  next s d := (downloadAsync blob.length s d).1

namespace Download

/-- All of the body is read, and then its end. -/
def Whole (d : Download) : Prop := d.ending = .drained ∧ d.reads.flatten = d.response.content

end Download

/-- The `.part` file is a beginning of the blob, and the model is the blob where it is there. -/
structure Kept (blob : Bytes) (s : ModelFiles) : Prop where
  part : ∀ file ∈ s.part, file <+: blob
  dest : ∀ file ∈ s.dest, file = blob

/-- What a call is expected to do. -/
structure Delivers (blob : Bytes) (s : ModelFiles) (d : Download) : Prop where
  part : ∀ file ∈ (downloadAsync blob.length s d).1.part, file <+: blob
  dest : (downloadAsync blob.length s d).2 = .returned →
    (downloadAsync blob.length s d).1.dest = some blob
  returns : d.Whole → (downloadAsync blob.length s d).2 = .returned

/-- The model is there already, or a read fails, or the call is not refused and its body does not
end early. -/
def Undisturbed (blob : Bytes) (s : ModelFiles) (d : Download) : Prop :=
  s.isPresent blob.length = true ∨ d.ending = .broke ∨
    d.response.statusCode ≠ 416 ∧ d.reads.flatten = d.response.content

instance (blob : Bytes) (s : ModelFiles) (d : Download) : Decidable (Undisturbed blob s d) :=
  inferInstanceAs (Decidable (_ ∨ _ ∨ _ ∧ _))

variable {blob : Bytes} {s : ModelFiles} {d : Download}

theorem copy_eq (file : Bytes) (reads : List Bytes) : copy file reads = file ++ reads.flatten := by
  induction reads generalizing file with
  | nil => exact (List.append_nil file).symm
  | cons buf reads ih => rw [copy,ih,List.append_assoc,List.flatten_cons]

namespace ModelFiles

theorem isPresent_iff {size : ℕ} : s.isPresent size = true ↔
    ∃ file ∈ s.dest, file.length = size := by
  rw [isPresent,Option.any_eq_true]
  simp only [decide_eq_true_eq,Option.mem_def]

theorem range_eq_some {offset : ℕ} (h : s.range = some offset) :
    0 < offset ∧ ∃ file, s.part = some file ∧ file.length = offset := by
  rw [range] at h
  split at h
  · rename_i hhave
    cases h
    refine ⟨hhave,?_⟩
    cases hpart : s.part with
    | none =>
      rw [have_,hpart] at hhave
      cases hhave
    | some file => exact ⟨file,rfl,by rw [have_,hpart]; rfl⟩
  · cases h

end ModelFiles

/-- A call that asks a server for a model that is not there: it is refused, or what it writes
makes the beginning that it keeps longer by what is read of the rest. -/
theorem downloadAsync_cases (hkept : Kept blob s) (hpresent : s.isPresent blob.length = false)
    (hd : (downloads blob).enabled s d) :
    (d.response.statusCode = 416 ∧ d.response.content = [] ∧
        downloadAsync blob.length s d = (s,.thrown)) ∨
      d.response.statusCode ≠ 416 ∧ ∃ opened, opened ++ d.response.content = blob ∧
        downloadAsync blob.length s d =
          match d.ending with
          | .broke => ({ s with part := some (opened ++ d.reads.flatten) },.thrown)
          | .drained => ({ dest := some (opened ++ d.reads.flatten), part := none },.returned) := by
  obtain ⟨hhonest,hreads⟩ := hd
  obtain ⟨response,reads,ending⟩ := d
  simp only at hhonest hreads ⊢
  rw [downloadAsync,hpresent]
  simp only [Bool.false_eq_true,if_false,copy_eq]
  generalize hrange : s.range = range at hhonest
  cases hhonest with
  | full =>
    exact .inr ⟨Nat.ne_of_beq_eq_false rfl,[],List.nil_append blob,rfl⟩
  | @rest offset hoffset =>
    obtain ⟨hpos,file,hpart,hlength⟩ := s.range_eq_some hrange
    refine .inr ⟨Nat.ne_of_beq_eq_false rfl,file,?_,?_⟩
    · obtain ⟨rest,hrest⟩ := hkept.part file hpart
      simp only [← hrest,← hlength,List.drop_left]
    · have hresumes : Response.resumes ⟨206,blob.drop offset⟩ s = true := by
        rw [Response.resumes,ModelFiles.have_,hpart]
        simpa [hlength] using hpos
      have hsuccess : Response.isSuccess ⟨206,blob.drop offset⟩ = true := rfl
      simp only [hsuccess,hresumes,Bool.not_true,Bool.false_eq_true,if_false,if_true,hpart,
        Option.getD_some]
  | refused hoffset => exact .inl ⟨rfl,rfl,rfl⟩

theorem delivers_of_isPresent (hkept : Kept blob s) (h : s.isPresent blob.length = true) :
    Delivers blob s d := by
  have hcall : downloadAsync blob.length s d = (s,.returned) := if_pos h
  obtain ⟨file,hfile,-⟩ := s.isPresent_iff.mp h
  constructor
  · rw [hcall]
    exact hkept.part
  · intro _
    rw [hcall,← hkept.dest file hfile]
    exact hfile
  · intro _
    rw [hcall]

/-- A call whose transfer breaks is only expected to keep a beginning of the model. -/
theorem delivers_of_broke {s' : ModelFiles} (hbroke : d.ending = .broke)
    (hcall : downloadAsync blob.length s d = (s',.thrown))
    (hpart : ∀ file ∈ s'.part, file <+: blob) : Delivers blob s d := by
  constructor
  · rw [hcall]
    exact hpart
  · rw [hcall]
    intro hreturned
    cases hreturned
  · rintro ⟨hdrained,-⟩
    rw [hbroke] at hdrained
    cases hdrained

/-- A call does what is expected of it exactly where nothing disturbs it. -/
theorem fetches_iff (hkept : Kept blob s) (hd : (downloads blob).enabled s d) :
    Delivers blob s d ↔ Undisturbed blob s d := by
  cases hpresent : s.isPresent blob.length with
  | true => exact iff_of_true (delivers_of_isPresent hkept hpresent) (.inl hpresent)
  | false =>
    have hread := hd.2
    rcases downloadAsync_cases hkept hpresent hd with
      ⟨hrefused,hcontent,hcall⟩ | ⟨hstatus,opened,hopened,hcall⟩
    · rw [hcontent,List.prefix_nil] at hread
      constructor
      · rintro ⟨-,-,hreturns⟩
        cases hending : d.ending with
        | broke => exact .inr (.inl hending)
        | drained =>
          rw [hcall] at hreturns
          cases hreturns ⟨hending,hread.trans hcontent.symm⟩
      · rintro (h | h | ⟨h,-⟩)
        · rw [hpresent] at h
          cases h
        · exact delivers_of_broke h hcall hkept.part
        · exact absurd hrefused h
    · cases hending : d.ending with
      | broke =>
        rw [hending] at hcall
        refine iff_of_true (delivers_of_broke hending hcall fun file hfile => ?_)
          (.inr (.inl hending))
        cases hfile
        rw [← hopened]
        exact (List.prefix_append_right_inj opened).mpr hread
      | drained =>
        rw [hending] at hcall
        constructor
        · rintro ⟨-,hdest,-⟩
          rw [hcall] at hdest
          have hwritten := Option.some.inj (hdest rfl)
          rw [← hopened,List.append_cancel_left_eq] at hwritten
          exact .inr (.inr ⟨hstatus,hwritten⟩)
        · rintro (h | h | ⟨-,hwhole⟩)
          · rw [hpresent] at h
            cases h
          · rw [hending] at h
            cases h
          · constructor
            · intro file hfile
              rw [hcall] at hfile
              cases hfile
            · rw [hcall,hwhole,hopened]
              exact fun _ => rfl
            · rw [hcall]
              exact fun _ => rfl

theorem downloadAsync_thrown {size : ℕ} (h : (downloadAsync size s d).2 = .thrown) :
    (downloadAsync size s d).1.dest = s.dest := by
  rw [downloadAsync] at h ⊢
  split
  · rfl
  · rename_i hpresent
    rw [if_neg hpresent] at h
    split
    · rfl
    · rename_i hsuccess
      rw [if_neg hsuccess] at h
      cases hending : d.ending with
      | broke => rfl
      | drained =>
        rw [hending] at h
        cases h

theorem Delivers.kept (hkept : Kept blob s) (h : Delivers blob s d) :
    Kept blob ((downloads blob).next s d) := by
  refine ⟨h.part,fun file hfile => ?_⟩
  cases houtcome : (downloadAsync blob.length s d).2 with
  | returned => exact (Option.some.inj ((h.dest houtcome).symm.trans hfile)).symm
  | thrown => exact hkept.dest file ((downloadAsync_thrown houtcome).symm.trans hfile)

/-- Over a run of calls that starts with a beginning of the blob and without the model, all calls
do what is expected of them exactly where nothing disturbs them. -/
theorem downloads_deliver_iff (blob : Bytes) (part : Option Bytes) (ds : List Download)
    (hpart : ∀ file ∈ part, file <+: blob) (hrun : (downloads blob).Run { part } ds) :
    (∀ p ∈ (downloads blob).trail { part } ds, Delivers blob p.1 p.2) ↔
      ∀ p ∈ (downloads blob).trail { part } ds, Undisturbed blob p.1 p.2 := by
  refine hrun.forall_iff (G := Kept blob) ?_ (fun s d hkept hd => fetches_iff hkept hd)
    ⟨hpart,fun file hfile => ?_⟩
  · intro s d hkept hd hundisturbed
    exact ((fetches_iff hkept hd).mpr hundisturbed).kept hkept
  · cases hfile

/-- A transfer that breaks, and one that goes on from there. -/
theorem downloads_deliver_of_resumed :
    (downloads [1,2,3]).Run {} [⟨⟨200,[1,2,3]⟩,[[1],[2]],.broke⟩,⟨⟨206,[3]⟩,[[3]],.drained⟩] ∧
      ∀ p ∈ (downloads [1,2,3]).trail {}
        [⟨⟨200,[1,2,3]⟩,[[1],[2]],.broke⟩,⟨⟨206,[3]⟩,[[3]],.drained⟩],
        Delivers [1,2,3] p.1 p.2 := by
  have hrun : (downloads [1,2,3]).Run {}
      [⟨⟨200,[1,2,3]⟩,[[1],[2]],.broke⟩,⟨⟨206,[3]⟩,[[3]],.drained⟩] :=
    ⟨⟨.full,by decide⟩,⟨.rest (by decide),by decide⟩,trivial⟩
  exact ⟨hrun,(downloads_deliver_iff [1,2,3] none _ (fun _ h => (nomatch h)) hrun).mpr (by decide)⟩

/-- A file that is complete without the name of the model is refused, and stays as it is. -/
theorem downloads_complete_part_refused :
    (downloads [1]).Run { part := some [1] } [⟨⟨416,[]⟩,[],.drained⟩] ∧
      ¬∀ p ∈ (downloads [1]).trail { part := some [1] } [⟨⟨416,[]⟩,[],.drained⟩],
        Delivers [1] p.1 p.2 := by
  refine ⟨⟨⟨.refused (Nat.le_refl 1),by decide⟩,trivial⟩,fun h => ?_⟩
  have hreturns := (h _ List.mem_cons_self).returns ⟨rfl,rfl⟩
  cases hreturns

end Rullama.Native
