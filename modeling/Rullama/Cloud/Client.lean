import Rullama.Text.Json
import Rullama.Text.Parts
import Rullama.Text.TextDecoder

/-! # The stream of a cloud chat

The answer of a provider comes as lines, of which those that begin with `data:` are frames. They
arrive in reads of any size, so the end of what was read is kept until its line is complete.
-/
namespace Rullama.Cloud

open Rullama.Text
open Rullama.Text.Json (Value)

def newline : Units := [unit '\n']

/-- The property of an object, if the value is one. -/
def prop (key : String) : Value → Option Value
  | .object fields => fields.lookup (units key)
  | _ => none

/-- `?.[0]`, which is a property of arrays, of strings and of objects that have it. -/
def at0 : Value → Option Value
  | .array items => items.head?
  | .string s => s.head?.map (fun c => .string [c])
  | .object fields => fields.lookup (units "0")
  | _ => none

/-- What the frame with this data adds to the answer. -/
def delta (data : Units) : Option Units := do
  let value ← Json.parse data
  let choices ← prop "choices" value
  let choice ← at0 choices
  let message ← prop "delta" choice
  match ← prop "content" message with
  | .string s => if s.length > 0 then some s else none
  | _ => none

/-- The data of a line that is a frame. -/
def dataOf (line : Units) : Option Units := (past (units "data:") (trim line)).map trim

/-- The loop over the lines of the buffer: what is yielded, and what stays in the buffer unless
the stream is done. -/
def frames (buf : Units) : List Units × Option Units :=
  match h : cut newline buf with
  | none => ([],some buf)
  | some (line,rest) =>
    have : rest.length < buf.length := cut_shortens (List.cons_ne_nil _ _) h
    match dataOf line with
    | none => frames rest
    | some data =>
      if data = units "[DONE]" then ([],none)
      else ((delta data).toList ++ (frames rest).1,(frames rest).2)
termination_by buf.length

/-- The loop over the reads of the body. -/
def readBody (dec : TextDecoder) (buf : Units) : List (List UInt8) → List Units
  | [] => []
  | value :: reads =>
    let (dec,text) := dec.decode value
    match frames (buf ++ text) with
    | (deltas,none) => deltas
    | (deltas,some buf) => deltas ++ readBody dec buf reads

/-- What `streamCloudChat` yields when its response has this body. -/
def streamCloudChat (reads : List (List UInt8)) : List Units := readBody {} [] reads

/-! ## The lines -/

/-- A line of the stream, and whether a carriage return stands before its end. -/
structure Line where
  text : List Char
  crlf : Bool
  unbroken : '\n' ∉ text

namespace Line

def terminator (line : Line) : List Char := if line.crlf then ['\r','\n'] else ['\n']

end Line

def stream (lines : List Line) : List Char := lines.flatMap (fun line => line.text ++ line.terminator)

def isDone (line : Units) : Bool := dataOf line = some (units "[DONE]")

/-- The deltas of the frames before the one that ends the stream. -/
def contents (lines : List Units) : List Units :=
  (lines.takeWhile (fun line => !isDone line)).filterMap (fun line => (dataOf line).bind delta)

variable {buf text line : Units}

theorem frames_of_none (h : cut newline buf = none) : frames buf = ([],some buf) := by
  rw [frames]
  split
  · rfl
  · rename_i hsome
    rw [h] at hsome
    cases hsome

theorem frames_of_some {rest : Units} (h : cut newline buf = some (line,rest)) :
    frames buf = if isDone line then ([],none)
      else (((dataOf line).bind delta).toList ++ (frames rest).1,(frames rest).2) := by
  rw [frames]
  split
  · rename_i hnone
    rw [h] at hnone
    cases hnone
  · rename_i line' rest' hsome
    rw [h] at hsome
    cases hsome
    split
    · rename_i hdata
      simp only [isDone,hdata]
      rfl
    · rename_i data hdata
      simp only [isDone,hdata,Option.some.injEq,decide_eq_true_eq]
      rfl

/-- The lines of a buffer are gone through in the same way when the rest of it comes later. -/
theorem frames_append (buf text : Units) : frames (buf ++ text) =
    match frames buf with
    | (deltas,none) => (deltas,none)
    | (deltas,some rest) => (deltas ++ (frames (rest ++ text)).1,(frames (rest ++ text)).2) := by
  induction buf using (cut_shortens (m := newline) (List.cons_ne_nil _ _)).induction with
  | hnone buf h => rw [frames_of_none h]; rfl
  | hsome buf line rest h ih =>
    rw [frames_of_some h,frames_of_some (cut_append h text),ih]
    split
    · rfl
    · rcases frames rest with ⟨deltas,_ | rest⟩
      · rfl
      · simp only [List.append_assoc]

theorem frames_rest {deltas : List Units} {rest : Units} (h : frames buf = (deltas,some rest)) :
    cut newline rest = none := by
  induction buf using (cut_shortens (m := newline) (List.cons_ne_nil _ _)).induction
    generalizing deltas with
  | hnone buf hcut =>
    rw [frames_of_none hcut] at h
    cases h
    exact hcut
  | hsome buf line buf' hcut ih =>
    rw [frames_of_some hcut] at h
    split at h
    · cases h
    · have hrest : (frames buf').2 = some rest := congrArg Prod.snd h
      exact ih (Prod.ext rfl hrest)

/-- The yields do not depend on where the text was cut. -/
theorem readBody_eq {dec : TextDecoder} (hbuf : cut newline buf = none)
    (reads : List (List UInt8)) :
    readBody dec buf reads = (frames (buf ++ (dec.texts reads).flatten)).1 := by
  induction reads generalizing dec buf with
  | nil =>
    rw [TextDecoder.texts,List.flatten_nil,List.append_nil,frames_of_none hbuf]
    rfl
  | cons value reads ih =>
    rw [readBody,TextDecoder.texts,List.flatten_cons,← List.append_assoc,frames_append]
    simp only
    cases hframes : frames (buf ++ (dec.decode value).2) with
    | mk deltas rest =>
      cases rest with
      | none => rfl
      | some rest => simp only [ih (frames_rest hframes)]

theorem dataOf_append {w : Units} (hw : Blank w) (line : Units) :
    dataOf (line ++ w) = dataOf line := by
  rw [dataOf,trim_append_right hw,dataOf]

theorem dataOf_bom (line : Units) : dataOf (0xFEFF :: line) = dataOf line := by
  have hbom : Blank [0xFEFF] := by decide
  rw [dataOf,← List.singleton_append,trim_append_left hbom,dataOf]

/-- A line of code units that is followed by an end of a line is the first one of the text. -/
theorem cut_newline (h : unit '\n' ∉ line) (text : Units) :
    cut newline (line ++ (newline ++ text)) = some (line,text) := by
  have hsharp : Sharp (unit '\n') newline := ⟨rfl,List.not_mem_nil⟩
  refine hsharp.cut_marker ?_ text
  rw [newline,List.singleton_infix_iff]
  exact h

theorem frames_stream {lines : List Units} (h : ∀ line ∈ lines, unit '\n' ∉ line) :
    (frames (lines.flatMap (· ++ newline))).1 = contents lines := by
  induction lines with
  | nil => exact congrArg Prod.fst (frames_of_none rfl)
  | cons line lines ih =>
    rw [List.flatMap_cons,List.append_assoc,
      frames_of_some (cut_newline (h line List.mem_cons_self) _),contents,List.takeWhile_cons]
    cases isDone line with
    | true => rfl
    | false =>
      simp only [Bool.false_eq_true,if_false,Bool.not_false,if_true,List.filterMap_cons]
      rw [ih fun line hline => h line (List.mem_cons_of_mem _ hline)]
      cases (dataOf line).bind delta <;> rfl

theorem frames_bom (text : Units) : (frames (0xFEFF :: text)).1 = (frames text).1 := by
  have hbom : ¬newline <+: 0xFEFF :: text := by
    rw [newline,List.cons_prefix_cons]
    exact fun h => absurd h.1 (by decide)
  cases hcut : cut newline text with
  | none =>
    have hcut' : cut newline (0xFEFF :: text) = none := by
      rw [cut_cons_of_not_isPrefix hbom,hcut]
      rfl
    rw [frames_of_none hcut,frames_of_none hcut']
  | some p =>
    have hcut' : cut newline (0xFEFF :: text) = some (0xFEFF :: p.1,p.2) := by
      rw [cut_cons_of_not_isPrefix hbom,hcut]
      rfl
    rw [frames_of_some hcut,frames_of_some hcut',isDone,isDone,dataOf_bom]

theorem contents_congr {lines : List Line} {f g : Line → Units}
    (h : ∀ line, dataOf (f line) = dataOf (g line)) :
    contents (lines.map f) = contents (lines.map g) := by
  rw [contents,contents,List.takeWhile_map,List.takeWhile_map,List.filterMap_map,
    List.filterMap_map]
  simp only [Function.comp_def,isDone,h]

/-! ## The code units of a stream -/

theorem newline_notMem_utf16 {c : Char} (hc : c ≠ '\n') : unit '\n' ∉ utf16 c.toNat := by
  have hvalid : c.toNat < 0xD800 ∨ 0xDFFF < c.toNat ∧ c.toNat < 0x110000 := c.valid
  have hne : c.toNat ≠ 10 := fun h => hc (Char.ext (UInt32.toNat_inj.mp h))
  have hunit {n : ℕ} (hn : n < 65536) (h : unit '\n' = UInt16.ofNat n) : n = 10 := by
    have := congrArg UInt16.toNat h
    rw [UInt16.toNat_ofNat_of_lt' hn] at this
    exact this.symm
  rw [utf16]
  split
  · rename_i hsmall
    rw [List.mem_singleton]
    exact fun h => hne (hunit hsmall h)
  · rw [List.mem_cons,List.mem_singleton]
    rintro (h | h)
    · have := hunit (by omega) h
      omega
    · have := hunit (by omega) h
      omega

theorem newline_notMem_unitsOf {text : List Char} (h : '\n' ∉ text) : unit '\n' ∉ unitsOf text := by
  rw [unitsOf,List.mem_flatMap]
  rintro ⟨c,hc,hin⟩
  exact newline_notMem_utf16 (fun heq => h (heq ▸ hc)) hin

def Line.units (line : Line) : Units :=
  unitsOf line.text ++ if line.crlf then [unit '\r'] else []

theorem unitsOf_append (a b : List Char) : unitsOf (a ++ b) = unitsOf a ++ unitsOf b :=
  List.flatMap_append

theorem unitsOf_terminator (line : Line) :
    unitsOf line.terminator = (if line.crlf then [unit '\r'] else []) ++ newline := by
  rw [Line.terminator]
  cases line.crlf <;> decide

theorem unitsOf_stream (lines : List Line) :
    unitsOf (stream lines) = (lines.map Line.units).flatMap (· ++ newline) := by
  induction lines with
  | nil => rfl
  | cons line lines ih =>
    rw [stream,List.flatMap_cons,unitsOf_append,unitsOf_append,← stream,ih,unitsOf_terminator,
      List.map_cons,List.flatMap_cons,Line.units]
    simp only [List.append_assoc]

theorem newline_notMem_units (line : Line) : unit '\n' ∉ line.units := by
  rw [Line.units,List.mem_append]
  rintro (h | h)
  · exact newline_notMem_unitsOf line.unbroken h
  · split at h
    · exact absurd h (by decide)
    · cases h

theorem dataOf_units (line : Line) : dataOf line.units = dataOf (unitsOf line.text) := by
  rw [Line.units]
  split
  · exact dataOf_append (by decide) _
  · rw [List.append_nil]

/-- The byte order mark that the decoder drops would not change what a line says. -/
theorem frames_withoutBom (text : List Char) :
    (frames ((withoutBom (text.map Char.toNat)).flatMap utf16)).1 = (frames (unitsOf text)).1 := by
  have hall : (text.map Char.toNat).flatMap utf16 = unitsOf text := List.flatMap_map ..
  cases text with
  | nil => rfl
  | cons c text =>
    rw [List.map_cons,withoutBom]
    split
    · rename_i hc
      rw [← hall,List.map_cons,List.flatMap_cons,hc]
      exact (frames_bom _).symm
    · rw [← List.map_cons,hall]

/-- However the bytes of a stream are cut into reads, the chat yields the deltas of its frames
up to the one that ends it. -/
theorem streamCloudChat_eq (lines : List Line) (reads : List (List UInt8))
    (h : reads.flatten = utf8 (stream lines)) :
    streamCloudChat reads = contents (lines.map (fun line => unitsOf line.text)) := by
  have hunbroken : ∀ line ∈ lines.map Line.units, unit '\n' ∉ line :=
    List.forall_mem_map.mpr fun line _ => newline_notMem_units line
  rw [streamCloudChat,readBody_eq rfl,List.nil_append,TextDecoder.flatten_texts_utf8 h,
    frames_withoutBom,unitsOf_stream,frames_stream hunbroken]
  exact contents_congr dataOf_units

/-- A frame with a letter of two bytes, and the one that ends the stream. -/
def frameLines : List Line :=
  [⟨"data: \x7b\"choices\":[\x7b\"delta\":\x7b\"content\":\"é\"\x7d\x7d]\x7d".toList,true,by decide⟩,
    ⟨"data: [DONE]".toList,false,by decide⟩]

/-- The stream is cut inside that letter. -/
theorem streamCloudChat_frameLines :
    streamCloudChat [(utf8 (stream frameLines)).take 40,(utf8 (stream frameLines)).drop 40] =
      [[0xE9]] := by
  have hcut : [(utf8 (stream frameLines)).take 40,(utf8 (stream frameLines)).drop 40].flatten =
      utf8 (stream frameLines) := by
    rw [List.flatten_cons,List.flatten_singleton,List.take_append_drop]
  exact (streamCloudChat_eq frameLines _ hcut).trans (by decide +kernel)

end Rullama.Cloud
