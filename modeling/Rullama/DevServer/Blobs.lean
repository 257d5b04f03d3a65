import Mathlib.Data.List.Basic
import Mathlib.Tactic.Common

/-! # Ranges of blobs

The dev server sends a model file, or the part of it that a `Range` header names. The file does not
change while it is sent, and a read gives any number of bytes up to what it was asked for.
-/
namespace Rullama.DevServer

/-- A file, whose size is a `u64`. -/
structure Blob where
  bytes : List UInt8
  size_lt : bytes.length < 18446744073709551616

def Blob.size (file : Blob) : ℕ := file.bytes.length

/-- Start, inclusive end and size. -/
structure ContentRange where
  start : ℕ
  stop : ℕ
  size : ℕ
deriving DecidableEq

structure Response where
  status : ℕ
  contentLength : ℕ
  contentRange : Option ContentRange
  body : List UInt8
deriving DecidableEq

/-! ## The header -/

def number (digits : List Char) : ℕ :=
  digits.foldl (fun n c => 10 * n + (c.toNat - '0'.toNat)) 0

/-- `str::parse::<u64>` -/
def parseU64 (text : List Char) : Option ℕ :=
  let digits := (text.dropPrefix? ['+']).getD text
  if !digits.isEmpty && digits.all Char.isDigit && number digits < 18446744073709551616 then
    some (number digits)
  else none

/-- `split_once` at a minus. -/
def splitOnce (text : List Char) : Option (List Char × List Char) :=
  match text.dropWhile (· != '-') with
  | [] => none
  | _ :: rest => some (text.takeWhile (· != '-'),rest)

def spec (range : List Char) : Option (List Char × List Char) :=
  (range.dropPrefix? "bytes=".toList).bind splitOnce

def rangeStart (a : List Char) : Option ℕ := if a.isEmpty then some 0 else parseU64 a

def rangeEnd (b : List Char) (size : ℕ) : Option ℕ :=
  if b.isEmpty then some (size - 1) else parseU64 b

/-- Start and end of the part that is sent. No header is one that is missing or not ASCII. -/
def parseRange (range : Option (List Char)) (size : ℕ) : Option (ℕ × ℕ) := do
  let bounds ← spec (← range)
  let start ← rangeStart bounds.1
  let stop ← rangeEnd bounds.2 size
  if size = 0 ∨ min stop (size - 1) < start ∨ size ≤ start then none
  else some (start,min stop (size - 1))

/-! ## The response -/

def CHUNK : ℕ := 1048576

/-- What a read gives if the file has as much. -/
def readSize (given remaining : ℕ) : ℕ := max 1 (min given (min remaining CHUNK))

/-- The chunks of the body put together: the rest of the file is read until so many bytes are
sent. The reads are numbered, and fuel for each byte is enough. -/
def stream (reads : ℕ → ℕ) : ℕ → ℕ → List UInt8 → ℕ → List UInt8
  | 0, _, _, _ => []
  | fuel + 1, i, rest, remaining =>
    if remaining = 0 then []
    else
      match rest.take (readSize (reads i) remaining) with
      | [] => []
      | chunk => chunk ++ stream reads fuel (i + 1) (rest.drop (readSize (reads i) remaining))
          (remaining - chunk.length)

/-- `get_blob` once the file is found and open. -/
def getBlob (reads : ℕ → ℕ) (file : Blob) (range : Option (List Char)) : Response :=
  let part := parseRange range file.size
  let (start,stop) := part.getD (0,file.size - 1)
  let length := stop + 1 - start
  { status := if part.isSome then 206 else 200
    contentLength := length
    contentRange := if part.isSome then some ⟨start,stop,file.size⟩ else none
    body := stream reads length 0 (file.bytes.drop start) length }

/-! ## What is asked for -/

/-- The three forms `a-b`, `a-` and `-n`. -/
inductive Ask where
  | fromTo (a b : ℕ)
  | fromOn (a : ℕ)
  | suffix (n : ℕ)
deriving DecidableEq

def digits? (text : List Char) : Option ℕ :=
  if !text.isEmpty && text.all Char.isDigit then some (number text) else none

def asked (range : Option (List Char)) : Option Ask := do
  let bounds ← spec (← range)
  if bounds.1.isEmpty then (digits? bounds.2).map .suffix
  else if bounds.2.isEmpty then (digits? bounds.1).map .fromOn
  else do
    let a ← digits? bounds.1
    let b ← digits? bounds.2
    some (.fromTo a b)

namespace Ask

/-- The first and the last byte that are asked for in a file of a size. -/
def first (size : ℕ) : Ask → ℕ
  | fromTo a _ => a
  | fromOn a => a
  | suffix n => size - n

def last (size : ℕ) : Ask → ℕ
  | fromTo _ b => min b (size - 1)
  | fromOn _ | suffix _ => size - 1

end Ask

/-- The body has its announced length, a part is the one that it is said to be and has what was
asked for, and what begins past the end is refused. -/
structure Correct (file : Blob) (range : Option (List Char)) (r : Response) : Prop where
  length : r.contentLength = r.body.length
  part : r.status = 206 → ∃ start stop, r.contentRange = some ⟨start,stop,file.size⟩ ∧
    stop < file.size ∧ r.body = (file.bytes.drop start).take (stop + 1 - start) ∧
    ∀ ask ∈ asked range, start ≤ ask.first file.size ∧ ask.last file.size ≤ stop
  past : ∀ ask ∈ asked range, file.size ≤ ask.first file.size → r.status = 416

/-- The range begins inside the file, and the last bytes are all or all but one. -/
def Served (size : ℕ) (ask : Ask) : Prop :=
  ask.first size < size ∧ ∀ n, ask = .suffix n → size ≤ n + 1

/-! ## Reads -/

variable {reads : ℕ → ℕ} {file : Blob} {range : Option (List Char)} {text : List Char} {ask : Ask}
  {size start stop n fuel remaining : ℕ}

/-- However the reads split, the body is the rest of the file up to the length. -/
theorem stream_eq (i : ℕ) (rest : List UInt8) (h : remaining ≤ fuel) :
    stream reads fuel i rest remaining = rest.take remaining := by
  induction fuel generalizing i rest remaining with
  | zero =>
    obtain rfl : remaining = 0 := Nat.le_zero.mp h
    rfl
  | succ fuel ih =>
    rw [stream]
    by_cases hzero : remaining = 0
    · rw [if_pos hzero,hzero,List.take_zero]
    · rw [if_neg hzero]
      have hchunk : 0 < CHUNK := by decide
      have hle : readSize (reads i) remaining ≤ remaining := by
        rw [readSize]
        omega
      have hpos : 0 < readSize (reads i) remaining := by
        rw [readSize]
        omega
      generalize readSize (reads i) remaining = n at hle hpos ⊢
      cases htake : rest.take n with
      | nil =>
        have hrest : rest = [] := by
          rcases List.take_eq_nil_iff.mp htake with hn | hrest
          · omega
          · exact hrest
        simp only [hrest,List.take_nil]
      | cons c chunk =>
        have hlen : (rest.take n).length ≤ n := List.length_take_le n rest
        rw [htake] at hlen
        simp only
        rw [ih (i + 1) (rest.drop n) (by simp only [List.length_cons]; omega),← htake]
        by_cases hshort : rest.length ≤ n
        · rw [List.drop_of_length_le hshort,List.take_nil,List.append_nil,
            List.take_of_length_le hshort,List.take_of_length_le (Nat.le_trans hshort hle)]
        · rw [List.length_take_of_le (Nat.le_of_not_le hshort),← List.take_add,
            Nat.add_sub_cancel' hle]

/-! ## The parsed range -/

theorem parseU64_of_digits (h : digits? text = some n) :
    parseU64 text = if n < 18446744073709551616 then some n else none := by
  rw [digits?] at h
  split at h
  · rename_i hdigits
    cases h
    rw [Bool.and_eq_true] at hdigits
    have hplus : text.dropPrefix? ['+'] = none := by
      cases text with
      | nil => rfl
      | cons c text =>
        have hc : c.isDigit = true := List.all_eq_true.mp hdigits.2 c List.mem_cons_self
        have hne : c ≠ '+' := by
          rintro rfl
          cases hc
        simp [List.dropPrefix?,hne]
    simp only [parseU64,hplus,Option.getD_none,hdigits,Bool.true_and,decide_eq_true_eq]
  · cases h

theorem digits_ne_nil (h : digits? text = some n) : text.isEmpty = false := by
  cases text with
  | nil => cases h
  | cons c text => rfl

theorem parseRange_eq_some : parseRange range size = some (start,stop) ↔
    ∃ a b first last, range.bind spec = some (a,b) ∧ rangeStart a = some first ∧
      rangeEnd b size = some last ∧ first ≤ min last (size - 1) ∧ first < size ∧
        start = first ∧ stop = min last (size - 1) := by
  simp only [parseRange,Option.bind_eq_bind,← Option.bind_assoc]
  constructor
  · intro h
    obtain ⟨⟨a,b⟩,hspec,h⟩ := Option.bind_eq_some_iff.mp h
    obtain ⟨first,hfirst,h⟩ := Option.bind_eq_some_iff.mp h
    obtain ⟨last,hlast,h⟩ := Option.bind_eq_some_iff.mp h
    split at h
    · cases h
    · rename_i hbounds
      cases h
      exact ⟨a,b,_,last,hspec,hfirst,hlast,by omega,by omega,rfl,rfl⟩
  · rintro ⟨a,b,first,last,hspec,hfirst,hlast,hle,hlt,hstart,hstop⟩
    rw [hspec,Option.bind_some,hfirst,Option.bind_some,hlast,Option.bind_some,
      if_neg (by omega),hstart,hstop]

/-- A part is inside the file. -/
theorem parseRange_lt (h : parseRange range size = some (start,stop)) :
    start ≤ stop ∧ stop < size := by
  obtain ⟨a,b,first,last,-,-,-,hle,hlt,rfl,rfl⟩ := parseRange_eq_some.mp h
  omega

/-- What a part has to do with what is asked for: the first bytes are taken for the last ones. -/
theorem asked_of_parseRange (h : parseRange range size = some (start,stop))
    (hask : ask ∈ asked range) :
    match ask with
    | .fromTo a b => start = a ∧ stop = min b (size - 1)
    | .fromOn a => start = a ∧ stop = size - 1
    | .suffix n => start = 0 ∧ stop = min n (size - 1) := by
  obtain ⟨a,b,first,last,hspec,hfirst,hlast,hle,hlt,rfl,rfl⟩ := parseRange_eq_some.mp h
  simp only [asked,Option.bind_eq_bind,← Option.bind_assoc,hspec,Option.bind_some] at hask
  rw [rangeStart] at hfirst
  rw [rangeEnd] at hlast
  split at hask
  · rename_i hempty
    obtain ⟨n,hn,rfl⟩ := Option.map_eq_some_iff.mp hask
    rw [if_pos hempty,Option.some.injEq] at hfirst
    rw [if_neg (by rw [digits_ne_nil hn]; exact Bool.false_ne_true),parseU64_of_digits hn] at hlast
    split at hlast
    · cases hlast
      exact ⟨hfirst.symm,rfl⟩
    · cases hlast
  · rename_i hfull
    rw [if_neg hfull] at hfirst
    split at hask
    · rename_i hempty
      obtain ⟨n,hn,rfl⟩ := Option.map_eq_some_iff.mp hask
      rw [if_pos hempty,Option.some.injEq] at hlast
      rw [parseU64_of_digits hn] at hfirst
      split at hfirst
      · cases hfirst
        exact ⟨rfl,by omega⟩
      · cases hfirst
    · rename_i hempty
      obtain ⟨n,hn,hask⟩ := Option.bind_eq_some_iff.mp hask
      obtain ⟨m,hm,hask⟩ := Option.bind_eq_some_iff.mp hask
      cases hask
      rw [if_neg hempty,parseU64_of_digits hm] at hlast
      rw [parseU64_of_digits hn] at hfirst
      split at hfirst
      · split at hlast
        · cases hfirst
          cases hlast
          exact ⟨rfl,rfl⟩
        · cases hlast
      · cases hfirst

/-- The last bytes of a file that is not empty are always answered, with a number that is a
`u64`. -/
theorem parseRange_suffix (hask : .suffix n ∈ asked range) (hsize : 0 < size)
    (hn : n < 18446744073709551616) : parseRange range size = some (0,min n (size - 1)) := by
  simp only [asked,Option.bind_eq_bind,← Option.bind_assoc] at hask
  obtain ⟨⟨a,b⟩,hspec,hask⟩ := Option.bind_eq_some_iff.mp hask
  rw [parseRange_eq_some]
  split at hask
  · rename_i hempty
    obtain ⟨m,hm,h⟩ := Option.map_eq_some_iff.mp hask
    cases h
    refine ⟨a,b,0,n,hspec,if_pos hempty,?_,Nat.zero_le _,hsize,rfl,rfl⟩
    rw [rangeEnd,if_neg (by rw [digits_ne_nil hm]; exact Bool.false_ne_true),
      parseU64_of_digits hm,if_pos hn]
  · split at hask
    · obtain ⟨m,-,h⟩ := Option.map_eq_some_iff.mp hask
      cases h
    · obtain ⟨m,-,hask⟩ := Option.bind_eq_some_iff.mp hask
      obtain ⟨k,-,hask⟩ := Option.bind_eq_some_iff.mp hask
      cases hask

/-! ## The answers -/

theorem getBlob_part (h : parseRange range file.size = some (start,stop)) :
    getBlob reads file range =
      ⟨206,stop + 1 - start,some ⟨start,stop,file.size⟩,
        (file.bytes.drop start).take (stop + 1 - start)⟩ := by
  simp only [getBlob,h,Option.isSome_some,Option.getD_some,if_true,stream_eq 0 _ (Nat.le_refl _)]

theorem getBlob_whole (h : parseRange range file.size = none) :
    getBlob reads file range = ⟨200,file.size - 1 + 1,none,file.bytes⟩ := by
  simp only [getBlob,h,Option.isSome_none,Option.getD_none,stream_eq 0 _ (Nat.le_refl _)]
  rw [List.drop_zero,List.take_of_length_le (by rw [← Blob.size]; omega)]
  rfl

/-- A range is never refused. -/
theorem getBlob_status : (getBlob reads file range).status ≠ 416 := by
  cases h : parseRange range file.size with
  | none =>
    rw [getBlob_whole h]
    exact Nat.ne_of_beq_eq_false rfl
  | some part =>
    obtain ⟨start,stop⟩ := part
    rw [getBlob_part h]
    exact Nat.ne_of_beq_eq_false rfl

/-- The announced length is right exactly for a file that is not empty. -/
theorem getBlob_length : (getBlob reads file range).contentLength =
    (getBlob reads file range).body.length ↔ file.bytes ≠ [] := by
  rw [← List.length_pos_iff,← Blob.size]
  cases h : parseRange range file.size with
  | none =>
    rw [getBlob_whole h]
    change file.size - 1 + 1 = file.size ↔ _
    omega
  | some part =>
    obtain ⟨start,stop⟩ := part
    obtain ⟨hle,hlt⟩ := parseRange_lt h
    rw [getBlob_part h]
    simp only [List.length_take,List.length_drop]
    rw [← Blob.size]
    omega

/-- A part is the one that it is said to be. -/
theorem getBlob_body (h : (getBlob reads file range).status = 206) :
    ∃ start stop, parseRange range file.size = some (start,stop) := by
  cases hpart : parseRange range file.size with
  | none =>
    rw [getBlob_whole hpart] at h
    cases h
  | some part => exact ⟨part.1,part.2,rfl⟩

/-- A part has what is asked for if that is served. -/
theorem parseRange_covers (h : parseRange range file.size = some (start,stop))
    (hask : ask ∈ asked range) (hserved : Served file.size ask) :
    start ≤ ask.first file.size ∧ ask.last file.size ≤ stop := by
  have hasked := asked_of_parseRange h hask
  cases ask with
  | fromTo a b => exact ⟨Nat.le_of_eq hasked.1,Nat.le_of_eq hasked.2.symm⟩
  | fromOn a => exact ⟨Nat.le_of_eq hasked.1,Nat.le_of_eq hasked.2.symm⟩
  | suffix n =>
    have hn := hserved.2 n rfl
    simp only [Ask.first,Ask.last]
    omega

/-- The last bytes are served only if they are all or all but one. -/
theorem served_of_covers (hne : file.bytes ≠ []) (hask : .suffix n ∈ asked range)
    (h : ∀ start stop, parseRange range file.size = some (start,stop) → file.size - 1 ≤ stop) :
    file.size ≤ n + 1 := by
  have hsize : 0 < file.size := List.length_pos_iff.mpr hne
  by_cases hn : n < 18446744073709551616
  · have hstop := h 0 (min n (file.size - 1)) (parseRange_suffix hask hsize hn)
    omega
  · have hlt : file.size < 18446744073709551616 := file.size_lt
    omega

/-- The answers are right, however the file is read, exactly if it is not empty and what is asked
for begins inside it and is not its last bytes, unless these are all or all but one. -/
theorem getBlob_correct_iff (file : Blob) (range : Option (List Char)) :
    (∀ reads, Correct file range (getBlob reads file range)) ↔
      file.bytes ≠ [] ∧ ∀ ask ∈ asked range, Served file.size ask := by
  constructor
  · intro h
    have hne := getBlob_length.mp (h fun _ => 1).length
    refine ⟨hne,fun ask hask => ⟨?_,?_⟩⟩
    · by_contra hpast
      exact getBlob_status ((h fun _ => 1).past ask hask (Nat.le_of_not_lt hpast))
    · rintro n rfl
      refine served_of_covers hne hask fun start stop hpart => ?_
      obtain ⟨first,last,hrange,-,-,hcovers⟩ := (h fun _ => 1).part (by rw [getBlob_part hpart])
      rw [getBlob_part hpart] at hrange
      cases hrange
      exact (hcovers _ hask).2
  · rintro ⟨hne,hserved⟩ reads
    refine ⟨getBlob_length.mpr hne,fun hstatus => ?_,fun ask hask hpast => ?_⟩
    · obtain ⟨start,stop,hpart⟩ := getBlob_body hstatus
      rw [getBlob_part hpart]
      exact ⟨start,stop,rfl,(parseRange_lt hpart).2,rfl,
        fun ask hask => parseRange_covers hpart hask (hserved ask hask)⟩
    · exact absurd (hserved ask hask).1 (Nat.not_lt.mpr hpast)

/-- A download that has all of its bytes and asks for the rest gets the whole file again. -/
theorem complete_not_refused :
    ¬Correct ⟨[1,2,3],by decide⟩ (some "bytes=3-".toList)
      (getBlob (fun _ => 1) ⟨[1,2,3],by decide⟩ (some "bytes=3-".toList)) := by
  intro h
  exact absurd (h.past (.fromOn 3) (by decide) (by decide)) (by decide)

end Rullama.DevServer
