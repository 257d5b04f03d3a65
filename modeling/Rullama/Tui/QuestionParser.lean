import Rullama.Text.Search
import Rullama.Tools.Json

/-! # Clarifying questions in a response

A block of questions stands between two tags at the end of a response. The first opening tag, and
the first closing tag behind it, are taken for its bounds. The JSON reader is a parameter. Log
messages are left out.
-/
namespace Rullama.QuestionParser

open Text
open Tools (isWhitespace)

inductive AmbiguityType where
  | semantic
  | generalize
  | specify
deriving DecidableEq

structure AmbiguityAnalysis where
  predictedTypes : List AmbiguityType
  reasoning : String
deriving DecidableEq

structure QuestionOption where
  id : String
  label : String
  description : Option String
deriving DecidableEq

structure ClarifyingQuestion where
  id : String
  question : String
  header : String
  options : List QuestionOption
  multiSelect : Bool
  ambiguityType : Option AmbiguityType
deriving DecidableEq

structure QuestionBlock where
  ambiguityAnalysis : Option AmbiguityAnalysis
  questions : List ClarifyingQuestion
deriving DecidableEq

structure ParsedResponse where
  content : List Char
  questions : Option QuestionBlock
deriving DecidableEq

/-! ## The parser -/

def trim (text : List Char) : List Char :=
  (text.dropWhile isWhitespace).rdropWhile isWhitespace

def openingTag : List Char := "<clarifying_questions>".toList

def closingTag : List Char := "</clarifying_questions>".toList

/-- What the regex captures, between what is before and behind its match. -/
def captures (response : List Char) : Option (List Char × List Char × List Char) := do
  let (before,rest) ← cut openingTag response
  let (body,after) ← cut closingTag rest
  some (before,trim body,after)

/-- `split_whitespace().count()` -/
def wordCount (text : String) : ℕ :=
  (text.toList.splitOnP isWhitespace).countP (fun word => !word.isEmpty)

def validOption (option : QuestionOption) : Bool :=
  wordCount option.label != 0 && wordCount option.label ≤ 5

def validQuestion (q : ClarifyingQuestion) : Bool :=
  2 ≤ q.options.length && q.options.length ≤ 4 && q.header.utf8ByteSize ≤ 12 &&
    q.options.all validOption

/-- The ambiguity analysis is optional, and only warned about. -/
def validateQuestionBlock (block : QuestionBlock) : Bool :=
  !block.questions.isEmpty && block.questions.length ≤ 4 && block.questions.all validQuestion

def parseResponse (fromStr : List Char → Option QuestionBlock) (response : List Char) :
    ParsedResponse :=
  match captures response with
  | none => ⟨response,none⟩
  | some (before,json,after) =>
    match fromStr json with
    | none => ⟨response,none⟩
    | some block =>
      if validateQuestionBlock block then ⟨trim (before ++ after),some block⟩
      else ⟨response,none⟩

/-! ## Responses with a block -/

/-- A response of a prose text and a block. -/
def withBlock (prose body : List Char) : List Char :=
  prose ++ (openingTag ++ (body ++ closingTag))

def HasBlock (fromStr : List Char → Option QuestionBlock) (response : List Char) : Prop :=
  ∃ before body after block, response = before ++ (openingTag ++ (body ++ (closingTag ++ after))) ∧
    fromStr (trim body) = some block ∧ validateQuestionBlock block = true

/-- Neither tag stands where the other one is looked for. -/
def Clean (prose body : List Char) : Prop :=
  ¬openingTag <:+: prose ∧ ¬closingTag <:+: body

/-- The first block is one of the prose, asks the same and leaves the prose if it is taken out. -/
def Repeats (fromStr : List Char → Option QuestionBlock) (prose body : List Char)
    (block : QuestionBlock) : Prop :=
  ∃ before rest first after, cut openingTag prose = some (before,rest) ∧
    cut closingTag rest = some (first,after) ∧ fromStr (trim first) = some block ∧
    trim (before ++ withBlock after body) = trim prose

variable {fromStr : List Char → Option QuestionBlock} {prose body response s a b x : List Char}
  {block : QuestionBlock}

/-! ## Trimming -/

/-- The characters that are not white space. -/
def ink (text : List Char) : ℕ := text.countP (fun c => !isWhitespace c)

@[simp] theorem ink_append (a b : List Char) : ink (a ++ b) = ink a + ink b := List.countP_append

theorem ink_dropWhile (s : List Char) : ink (s.dropWhile isWhitespace) = ink s := by
  induction s with
  | nil => rfl
  | cons c s ih =>
    rw [List.dropWhile_cons]
    split
    · rename_i hc
      rw [ih,ink,ink,List.countP_cons_of_neg (by simp [hc])]
    · rfl

theorem ink_reverse (s : List Char) : ink s.reverse = ink s := List.countP_reverse

theorem ink_trim (s : List Char) : ink (trim s) = ink s := by
  rw [trim,List.rdropWhile,ink_reverse,ink_dropWhile,ink_reverse,ink_dropWhile]

theorem ink_closingTag : ink closingTag = 23 := by decide

theorem ink_openingTag : ink openingTag = 22 := by decide

theorem exists_trim (s : List Char) : ∃ w, s.dropWhile isWhitespace = trim s ++ w := by
  obtain ⟨w,hw⟩ := List.rdropWhile_prefix isWhitespace (s.dropWhile isWhitespace)
  exact ⟨w,hw.symm⟩

/-- Only what is before a closing tag is trimmed. -/
theorem dropWhile_closingTag (s : List Char) :
    ∃ t, (s ++ closingTag).dropWhile isWhitespace = t ++ closingTag := by
  rw [List.dropWhile_append]
  split
  · exact ⟨[],rfl⟩
  · exact ⟨_,rfl⟩

theorem trim_closingTag (s : List Char) :
    trim (s ++ closingTag) = (s ++ closingTag).dropWhile isWhitespace := by
  obtain ⟨t,ht⟩ := dropWhile_closingTag s
  have hlast : t ++ closingTag = t ++ closingTag.dropLast ++ ['>'] := by
    rw [List.append_assoc]
    rfl
  rw [trim,ht,hlast]
  exact List.rdropWhile_concat_neg _ _ _ (by decide)

/-- A closing tag that ends one of two texts is in the other one, where they differ, if they are
trimmed to the same. -/
theorem closingTag_of_trim (h : trim (x ++ (a ++ closingTag)) = trim (x ++ (openingTag ++ b))) :
    closingTag <:+: openingTag ++ b := by
  obtain ⟨w,hw⟩ := exists_trim (x ++ (openingTag ++ b))
  rw [← h,← List.append_assoc x a,trim_closingTag,List.append_assoc x a] at hw
  have hdrop (y : List Char) : (x ++ y).dropWhile isWhitespace =
      if (x.dropWhile isWhitespace).isEmpty then y.dropWhile isWhitespace
      else x.dropWhile isWhitespace ++ y := List.dropWhile_append
  by_cases hblank : (x.dropWhile isWhitespace).isEmpty = true
  · obtain ⟨t,ht⟩ := dropWhile_closingTag a
    have hopening : (openingTag ++ b).dropWhile isWhitespace = openingTag ++ b := rfl
    rw [hdrop,hdrop,if_pos hblank,if_pos hblank,hopening,ht] at hw
    exact ⟨t,w,hw.symm⟩
  · rw [hdrop,hdrop,if_neg hblank,if_neg hblank,List.append_assoc] at hw
    exact ⟨a,w,(List.append_cancel_left hw).symm⟩

/-! ## The first tags -/

theorem sharp_openingTag : Sharp '<' openingTag := ⟨rfl,by decide⟩

theorem sharp_closingTag : Sharp '<' closingTag := ⟨rfl,by decide⟩

theorem cut_opening_through (s : List Char) : cut closingTag (openingTag ++ s) =
    (cut closingTag s).map (fun p => (openingTag ++ p.1,p.2)) :=
  through_marker (u := openingTag.tail) rfl (by decide) 2 (by decide) (by decide) (by decide) s

/-- Where the first closing tag of a body and the tag behind it is. -/
theorem cut_body (body : List Char) : cut closingTag (body ++ closingTag) =
    some (((cut closingTag body).map (fun p => (p.1,p.2 ++ closingTag))).getD (body,[])) := by
  cases hcut : cut closingTag body with
  | none =>
    have hmarker := sharp_closingTag.cut_marker (cut_eq_none.mp hcut) []
    rw [List.append_nil] at hmarker
    rw [hmarker]
    rfl
  | some p => exact cut_append hcut closingTag

variable {before rest first after : List Char}

theorem captures_plain (h : ¬openingTag <:+: prose)
    (hbody : cut closingTag (body ++ closingTag) = some (first,after)) :
    captures (withBlock prose body) = some (prose,trim first,after) := by
  rw [captures,withBlock,sharp_openingTag.cut_marker h]
  simp only [Option.bind_eq_bind,Option.bind_some,hbody]

theorem captures_repeats (h : cut openingTag prose = some (before,rest))
    (hrest : cut closingTag rest = some (first,after)) :
    captures (withBlock prose body) = some (before,trim first,withBlock after body) := by
  rw [captures,withBlock,cut_append h]
  simp only [Option.bind_eq_bind,Option.bind_some,cut_append hrest]
  rfl

theorem captures_through (h : cut openingTag prose = some (before,rest))
    (hrest : ¬closingTag <:+: rest)
    (hbody : cut closingTag (body ++ closingTag) = some (first,after)) :
    captures (withBlock prose body) = some (before,trim (rest ++ (openingTag ++ first)),after) := by
  rw [captures,withBlock,cut_append h]
  simp only [Option.bind_eq_bind,Option.bind_some]
  rw [sharp_closingTag.cut_append hrest (sharp_openingTag.startsAt _),cut_opening_through,hbody]
  rfl

/-- What a match of the regex leads to. -/
theorem parseResponse_eq_some {json content : List Char}
    (h : captures response = some (before,json,after)) :
    parseResponse fromStr response = ⟨content,some block⟩ ↔
      fromStr json = some block ∧ validateQuestionBlock block = true ∧
        trim (before ++ after) = content := by
  rw [parseResponse,h]
  cases hblock : fromStr json with
  | none => simp [hblock]
  | some other =>
    simp only [hblock,Option.some.injEq]
    split
    · rename_i hvalid
      rw [ParsedResponse.mk.injEq,Option.some.injEq]
      constructor
      · rintro ⟨hcontent,rfl⟩
        exact ⟨rfl,hvalid,hcontent⟩
      · rintro ⟨rfl,-,hcontent⟩
        exact ⟨hcontent,rfl⟩
    · rename_i hvalid
      constructor
      · intro heq
        cases heq
      · rintro ⟨rfl,hyes,-⟩
        exact absurd hyes hvalid

/-- A text is not left by what has a closing tag behind it, nor by its part before an opening
tag. -/
theorem trim_ne (h : ink x ≠ 0) : trim (prose ++ x) ≠ trim prose := by
  intro heq
  have hink := congrArg ink heq
  rw [ink_trim,ink_trim,ink_append] at hink
  omega

theorem parseResponse_plain (hprose : ¬openingTag <:+: prose)
    (hblock : fromStr (trim body) = some block) (hvalid : validateQuestionBlock block = true) :
    parseResponse fromStr (withBlock prose body) = ⟨trim prose,some block⟩ ↔
      ¬closingTag <:+: body := by
  cases hcut : cut closingTag body with
  | none =>
    have hbody := cut_body body
    rw [hcut] at hbody
    rw [parseResponse_eq_some (captures_plain hprose hbody)]
    refine iff_of_true ⟨hblock,hvalid,?_⟩ (cut_eq_none.mp hcut)
    exact congrArg trim (List.append_nil prose)
  | some p =>
    have hbody := cut_body body
    rw [hcut] at hbody
    rw [parseResponse_eq_some (captures_plain hprose hbody)]
    refine iff_of_false ?_ (not_not.mpr (isInfix_of_cut hcut))
    rintro ⟨-,-,heq⟩
    refine trim_ne ?_ heq
    rw [ink_append,ink_closingTag]
    omega

/-- A block behind an opening tag of the prose is found only if the prose has a block of its own
that repeats it. -/
theorem parseResponse_mentioned (hcut : cut openingTag prose = some (before,rest))
    (hvalid : validateQuestionBlock block = true) :
    parseResponse fromStr (withBlock prose body) = ⟨trim prose,some block⟩ ↔
      Repeats fromStr prose body block := by
  cases hrest : cut closingTag rest with
  | some p =>
    obtain ⟨first,after⟩ := p
    rw [parseResponse_eq_some (captures_repeats hcut hrest)]
    constructor
    · rintro ⟨hfirst,-,htrim⟩
      exact ⟨before,rest,first,after,hcut,hrest,hfirst,htrim⟩
    · rintro ⟨before',rest',first',after',hcut',hrest',hfirst,htrim⟩
      rw [hcut] at hcut'
      cases hcut'
      rw [hrest] at hrest'
      cases hrest'
      exact ⟨hfirst,hvalid,htrim⟩
  | none =>
    have hnot := cut_eq_none.mp hrest
    have hprose := eq_append_of_cut hcut
    refine iff_of_false ?_ ?_
    · have hbody := cut_body body
      rw [parseResponse_eq_some (captures_through hcut hnot hbody)]
      rintro ⟨-,-,heq⟩
      rw [hprose] at heq
      cases hin : cut closingTag body with
      | none =>
        rw [hin] at heq
        have hink := congrArg ink heq
        simp only [Option.map_none,List.append_nil,ink_trim,ink_append,
          ink_openingTag] at hink
        omega
      | some p =>
        rw [hin] at heq
        -- the closing tag at the end would be in the prose
        have hinfix := closingTag_of_trim heq
        have hnone := cut_opening_through rest
        rw [hrest,Option.map_none] at hnone
        exact cut_eq_none.mp hnone hinfix
    · rintro ⟨before',rest',first',after',hcut',hrest',-⟩
      rw [hcut] at hcut'
      cases hcut'
      rw [hrest] at hrest'
      cases hrest'

theorem exists_of_captures {json : List Char} (h : captures response = some (before,json,after)) :
    ∃ body, response = before ++ (openingTag ++ (body ++ (closingTag ++ after))) ∧
      json = trim body := by
  obtain ⟨⟨before',rest⟩,hopening,h⟩ := Option.bind_eq_some_iff.mp h
  obtain ⟨⟨body,after'⟩,hclosing,h⟩ := Option.bind_eq_some_iff.mp h
  cases h
  exact ⟨body,by rw [eq_append_of_cut hopening,eq_append_of_cut hclosing],rfl⟩

theorem parseResponse_of_not_hasBlock (h : ¬HasBlock fromStr response) :
    parseResponse fromStr response = ⟨response,none⟩ := by
  rw [parseResponse]
  cases hcaptures : captures response with
  | none => rfl
  | some found =>
    obtain ⟨before,json,after⟩ := found
    obtain ⟨body,hresponse,rfl⟩ := exists_of_captures hcaptures
    cases hblock : fromStr (trim body) with
    | none => simp only [hblock]
    | some block =>
      simp only [hblock]
      split
      · rename_i hvalid
        exact absurd ⟨before,body,after,block,hresponse,hblock,hvalid⟩ h
      · rfl

/-- The questions of a block and the trimmed prose are returned exactly if neither tag is where the
other one is looked for, or the prose has a block that repeats this one; and a response without a
valid block is returned as it is. -/
theorem parseResponse_blocks (fromStr : List Char → Option QuestionBlock) :
    (∀ prose body block, fromStr (trim body) = some block → validateQuestionBlock block = true →
      (parseResponse fromStr (withBlock prose body) = ⟨trim prose,some block⟩ ↔
        Clean prose body ∨ Repeats fromStr prose body block)) ∧
    ∀ response, ¬HasBlock fromStr response → parseResponse fromStr response = ⟨response,none⟩ := by
  refine ⟨fun prose body block hblock hvalid => ?_,fun _ => parseResponse_of_not_hasBlock⟩
  cases hcut : cut openingTag prose with
  | none =>
    have hprose := cut_eq_none.mp hcut
    rw [parseResponse_plain hprose hblock hvalid]
    refine ⟨fun hbody => Or.inl ⟨hprose,hbody⟩,?_⟩
    rintro (⟨-,hbody⟩ | ⟨before,rest,first,after,hcut',-⟩)
    · exact hbody
    · rw [hcut] at hcut'
      cases hcut'
  | some p =>
    obtain ⟨before,rest⟩ := p
    rw [parseResponse_mentioned hcut hvalid,or_iff_right fun h => h.1 (isInfix_of_cut hcut)]

/-! ## A block of one question -/

def jwt : QuestionBlock where
  ambiguityAnalysis := none
  questions := [⟨"q1","Which?","Auth",[⟨"a","JWT",none⟩,⟨"b","Sessions",none⟩],false,none⟩]

def jwtJson : List Char :=
  ("\x7b\"questions\":[\x7b\"id\":\"q1\",\"question\":\"Which?\",\"header\":\"Auth\"," ++
    "\"multi_select\":false,\"options\":[\x7b\"id\":\"a\",\"label\":\"JWT\"\x7d," ++
    "\x7b\"id\":\"b\",\"label\":\"Sessions\"\x7d]\x7d]\x7d").toList

/-- A reader of this block only. -/
def readJwt (text : List Char) : Option QuestionBlock := if text = jwtJson then some jwt else none

theorem readJwt_jwtJson : readJwt (trim jwtJson) = some jwt := by decide +kernel

theorem jwt_valid : validateQuestionBlock jwt = true := by decide +kernel

theorem jwt_found : readJwt (trim jwtJson) = some jwt ∧ validateQuestionBlock jwt = true ∧
    (parseResponse readJwt (withBlock "Fine. ".toList jwtJson) =
        ⟨trim "Fine. ".toList,some jwt⟩ ↔
      Clean "Fine. ".toList jwtJson ∨ Repeats readJwt "Fine. ".toList jwtJson jwt) ∧
    parseResponse readJwt "Fine. ".toList = ⟨"Fine. ".toList,none⟩ := by
  refine ⟨readJwt_jwtJson,jwt_valid,
    (parseResponse_blocks readJwt).1 _ _ _ readJwt_jwtJson jwt_valid,
    (parseResponse_blocks readJwt).2 _ ?_⟩
  rintro ⟨before,body,after,-,hresponse,-⟩
  have hnot : ¬openingTag <:+: "Fine. ".toList := by decide +kernel
  exact hnot ⟨before,body ++ (closingTag ++ after),by rw [hresponse,List.append_assoc]⟩

/-- A prose text that mentions the opening tag keeps the block from being found. -/
theorem mention_not_found : readJwt (trim jwtJson) = some jwt ∧ validateQuestionBlock jwt = true ∧
    parseResponse readJwt (withBlock "I use <clarifying_questions> here. ".toList jwtJson) ≠
      ⟨trim "I use <clarifying_questions> here. ".toList,some jwt⟩ := by
  refine ⟨readJwt_jwtJson,jwt_valid,?_⟩
  intro heq
  have hquestions := congrArg ParsedResponse.questions heq
  exact absurd hquestions (by decide +kernel)

end Rullama.QuestionParser
