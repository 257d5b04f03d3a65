import Rullama.ToolCalls.Braces
import Rullama.ToolCalls.Reading
import Rullama.ToolCalls.Streaming

/-! # Emission

A model emits prose, closed blocks of reasoning and JSON tool calls. The parser is meant to read
back what was emitted.
-/
namespace Rullama.ToolCalls
open Text Text.Json

/-- A piece of what is emitted. A call may lack the bracket of its opening tag, and its closer. -/
inductive Item where
  | prose (t : Units)
  | thinking (t : Units)
  | call (body : Units) (bracket closer : Bool)

def Item.text : Item → Units
  | .prose t => t
  | .thinking t => channelOpen ++ (t ++ channelClose)
  | .call body bracket closer => toolCallOpenPrefix ++
      ((if bracket then [unit '>'] else []) ++ (body ++ (if closer then toolCallClose else [])))

def write (items : List Item) : Units := items.flatMap Item.text

/-- The name and the arguments of a call written in JSON. -/
def declared (body : Units) : Option (Units × Value) :=
  match Json.parse (trim body) with
  | some (.object fields) =>
    match fields.lookup (units "name"),fields.lookup (units "arguments") with
    | some (.string name),some (.object args) => some (name,.object args)
    | _,_ => none
  | _ => none

/-- The markers of the wire format and of the reasoning channel. -/
def markers : List Units :=
  [toolCallOpenPrefix,toolCallClose,channelOpen,channelClose,responseTag,toolResponseClose]

def Unmarked (t : Units) : Prop := ∀ m ∈ markers, ¬ m <:+: t

instance (t : Units) : Decidable (Unmarked t) := inferInstanceAs (Decidable (∀ _ ∈ _, _))

/-- What the items are to be: prose next to prose is one run, and no run has a marker in it. -/
def Emitted (w : Units) : List Item → Prop
  | [] => Unmarked w
  | .prose t :: items => Emitted (w ++ t) items
  | .thinking t :: items =>
    Unmarked w ∧ (¬ channelOpen <:+: t ∧ ¬ channelClose <:+: t) ∧ Emitted [] items
  | .call body _ _ :: items => Unmarked w ∧ (declared body).isSome ∧ Emitted [] items

/-! ## What should be read -/

inductive Piece where
  | prose (t : Units)
  | thinking (t : Units)
  | call (name : Units) (args : Value)

def prosePiece (w : Units) : List Piece := if trim w = [] then [] else [.prose (trim w)]

/-- The runs of prose, trimmed, the reasoning and the calls, in order. -/
def pieces (w : Units) : List Item → List Piece
  | [] => prosePiece w
  | .prose t :: items => pieces (w ++ t) items
  | .thinking t :: items => prosePiece w ++ .thinking (dropNewline t) :: pieces [] items
  | .call body _ _ :: items =>
    let call := (declared body).getD ([],.null)
    prosePiece w ++ .call call.1 call.2 :: pieces [] items

/-- What a segment shows, where it is complete. -/
def Segment.piece : Segment ToolCall → Option Piece
  | .prose t => some (.prose (trim t))
  | .thinking t isThinking isComplete =>
    if isComplete && !isThinking then some (.thinking t) else none
  | .call c => if c.pending then none else some (.call c.name c.arguments)

def declaredCalls (items : List Item) : List (Units × Value) :=
  items.filterMap (fun
    | .call body _ _ => declared body
    | _ => none)

/-- The reply is read as it was emitted: no call is merged, lost, raw or pending. -/
structure Inverted (lower : Units → Units) (items : List Item) : Prop where
  segments : (parseToolCalls lower (write items)).segments.map Segment.piece =
    (pieces [] items).map some
  calls : (parseToolCalls lower (write items)).calls.map (fun c => (c.name,c.arguments)) =
    declaredCalls items
  pending : (parseToolCalls lower (write items)).pending = false

/-! ## When it is -/

/-- Nothing in the text is taken for a marker of the call, or for a brace that trails it. -/
def CallReadable (body : Units) (closer : Bool) (rest : Units) : Prop :=
  (∀ name args, declared body = some (name,args) → name ≠ []) ∧
    if closer then ¬ toolCallClose <:+: body
    else ¬ toolCallClose <:+: body ++ rest ∧ (trimStart rest).head? ≠ some (unit '}')

def Readable : List Item → Prop
  | [] => True
  | .prose _ :: items => Readable items
  | .thinking t :: items => ¬ toolCallOpenPrefix <:+: t ∧ Readable items
  | .call body _ closer :: items => CallReadable body closer (write items) ∧ Readable items

/-! ## Single calls -/

theorem toCall_congr {a b : Units} (h : trim a = trim b) (pending : Bool) :
    toCall a pending = toCall b pending := by
  simp only [toCall,h]

theorem toCall_declared {body name : Units} {args : Value} (h : declared body = some (name,args))
    (hne : name ≠ []) (pending : Bool) :
    toCall body pending = ⟨name,args,trim body,pending,none⟩ := by
  rw [declared] at h
  split at h
  · rename_i fields hparse
    split at h
    · rename_i name' args' hname hargs
      cases h
      have hn : nameOf (.object fields) = name := by
        simp only [nameOf,stringField,field,hname,if_pos hne]
      have ha : argsOf (.object fields) = .object args' := by
        simp only [argsOf,presentField,field,hargs,Option.some_or,Option.getD_some]
      simp only [toCall,hparse,hn,ha,if_neg hne]
    · cases h
  · cases h

theorem parse_of_declared {body : Units} (h : (declared body).isSome) :
    ∃ fields, Json.parse (trim body) = some (.object fields) := by
  rw [declared] at h
  split at h
  · exact ⟨_,by assumption⟩
  · cases h

theorem skipBracket_of_head {s : Units} {c : UInt16} (h : s.head? = some c) (hc : c ≠ unit '>') :
    skipBracket s = s := by
  cases s with
  | nil => rfl
  | cons d s =>
    cases h
    rw [skipBracket,if_neg hc]

/-- The body of a call, with what may stand around it in the text. -/
structure Body (body inner w : Units) : Prop where
  eq : body = inner ++ w
  blank : Blank w
  brace : ∃ v t, Blank v ∧ inner = v ++ unit '{' :: t
  skip : ∀ (bracket : Bool) u, skipBracket ((if bracket then [unit '>'] else []) ++ (body ++ u)) = body ++ u
  matched : ∀ u, matchJsonEnd (inner ++ u) = some (inner,u)

theorem exists_body {body : Units} (h : (declared body).isSome) : ∃ inner w, Body body inner w := by
  obtain ⟨fields,hparse⟩ := parse_of_declared h
  obtain ⟨inner,w,rfl,hw,⟨v,t,hv,rfl⟩,hmatch⟩ := matchJsonEnd_of_parse hparse
  refine ⟨_,w,rfl,hw,⟨v,t,hv,rfl⟩,fun bracket u => ?_,hmatch⟩
  cases bracket with
  | true => rfl
  | false =>
    cases v with
    | nil => exact skipBracket_of_head rfl (by decide)
    | cons c v =>
      refine skipBracket_of_head rfl ?_
      rintro rfl
      exact absurd (hv (unit '>') List.mem_cons_self) (by decide)

theorem Body.toCall {body inner w : Units} (h : Body body inner w) (pending : Bool) :
    toCall inner pending = toCall body pending :=
  toCall_congr (by rw [h.eq,trim_append_right h.blank]) pending

/-- White space that no brace comes after is swallowed. -/
theorem swallow_eq {w rest : Units} (hw : Blank w)
    (hrest : (trimStart rest).head? ≠ some (unit '}')) : swallow (w ++ rest) = trimStart rest := by
  obtain ⟨v,hv,heq⟩ := exists_trimStart rest
  have hall : ∀ c ∈ w ++ v, (c = unit '}' || isSpace c) = true := by
    intro c hc
    rw [(List.mem_append.mp hc).elim (hw c) (hv c),Bool.or_true]
  have hdrop : (w ++ v ++ trimStart rest).dropWhile (fun c => c = unit '}' || isSpace c) =
      (trimStart rest).dropWhile (fun c => c = unit '}' || isSpace c) := by
    rw [List.dropWhile_append_of_pos]
    exact hall
  rw [swallow]
  conv_lhs => rw [heq,← List.append_assoc,hdrop]
  cases htrim : trimStart rest with
  | nil => rfl
  | cons c s =>
    rw [List.dropWhile_cons_of_neg]
    have hspace : isSpace c = false := head?_trimStart (congrArg List.head? htrim)
    rw [htrim] at hrest
    simp only [List.head?_cons,ne_eq,Option.some.injEq] at hrest
    simp [hrest,hspace]

/-! ## Reading back -/

def proseSegment (w : Units) : List (Segment ℕ) :=
  if trim w = [] then [] else [.prose (trim w)]

/-- The segments of what is emitted, where `n` calls come before. -/
def segs (n : ℕ) (w : Units) : List Item → List (Segment ℕ)
  | [] => proseSegment w
  | .prose t :: items => segs n (w ++ t) items
  | .thinking t :: items =>
    proseSegment w ++ .thinking (dropNewline t) false true :: segs n [] items
  | .call _ _ _ :: items => proseSegment w ++ .call n :: segs (n + 1) [] items

def emittedCalls (items : List Item) : List ToolCall :=
  items.filterMap (fun
    | .call body _ _ => some (toCall body false)
    | _ => none)

/-- A state that has read on. -/
def Reading.plus (st : Reading) (cs : List ToolCall) (ss : List (Segment ℕ)) : Reading :=
  { st with
    calls := st.calls ++ cs
    segments := st.segments ++ ss }

theorem Unmarked.not_open {w : Units} (h : Unmarked w) : ¬ toolCallOpenPrefix <:+: w :=
  h _ List.mem_cons_self

theorem Unmarked.not_channelOpen {w : Units} (h : Unmarked w) : ¬ channelOpen <:+: w :=
  h _ (by simp [markers])

theorem addText_same (st : Reading) (w : Units) : Same (addText st w) (st.plus [] (proseSegment w)) := by
  refine ⟨(List.append_nil _).symm,rfl,?_⟩
  simp only [addText,Reading.plus,proseSegment]
  split
  · exact (List.append_nil _).symm
  · rfl

theorem addProse_run {w : Units} (hw : Unmarked w) (st : Reading) :
    Same (addProse st w) (st.plus [] (proseSegment w)) := by
  have hnone : nextThought w = none := by
    rw [nextThought,cut_eq_none.mpr hw.not_channelOpen]
  rw [addProse_none hnone]
  exact addText_same st w

theorem addThought_run (w t : Units) (st : Reading) :
    Same (addThought st (w,t,true))
      (st.plus [] (proseSegment w ++ [.thinking (dropNewline t) false true])) := by
  have h := addText_same st w
  refine ⟨h.calls,h.pending,?_⟩
  simp only [addThought,h.segments,Reading.plus,List.append_assoc]
  rfl

theorem addFound_run {w : Units} (hw : Unmarked w) (inner : Units) {ending : Ending}
    (he : ending ≠ .streaming) (st : Reading) :
    Same (addFound st ⟨w,inner,ending⟩)
      (st.plus [toCall inner false] (proseSegment w ++ [.call st.calls.length])) := by
  have h := addProse_run hw st
  have hcalls : (addProse st w).calls = st.calls := h.calls.trans (List.append_nil _)
  refine ⟨?_,?_,?_⟩
  · simp only [addFound,addCall,hcalls,Found.call,he,decide_false]
    rfl
  · simp only [addFound,addCall,he,decide_false,Bool.or_false]
    exact h.pending
  · simp only [addFound,addCall,hcalls,h.segments,Reading.plus,List.append_assoc]

theorem plus_plus (st : Reading) (cs cs' : List ToolCall) (ss ss' : List (Segment ℕ)) :
    (st.plus cs ss).plus cs' ss' = st.plus (cs ++ cs') (ss ++ ss') := by
  simp only [Reading.plus,List.append_assoc]

/-- A call that is readable is found where it was written. -/
theorem nextCall_written {w body inner v rest : Units} (hw : Unmarked w)
    (hb : Body body inner v) (bracket : Bool) {closer : Bool} (hr : CallReadable body closer rest) :
    ∃ f after, nextCall (w ++ ((Item.call body bracket closer).text ++ rest)) = some (f,after) ∧
      f.before = w ∧ f.ending ≠ .streaming ∧ toCall f.inner false = toCall body false ∧
      ∃ x, Blank x ∧ rest = x ++ after := by
  obtain ⟨-,hr⟩ := hr
  cases closer with
  | true =>
    have htext : w ++ ((Item.call body bracket true).text ++ rest) = w ++ (toolCallOpenPrefix ++
        ((if bracket then [unit '>'] else []) ++ (body ++ (toolCallClose ++ rest)))) := by
      simp only [Item.text,if_true,List.append_assoc]
    have hnext := nextCall_closed hw.not_open (hb.skip bracket (toolCallClose ++ rest)) hr
    rw [htext]
    exact ⟨_,_,hnext,rfl,Ending.noConfusion,rfl,[],blank_nil,rfl⟩
  | false =>
    obtain ⟨hclose,hbrace⟩ := hr
    have htext : w ++ ((Item.call body bracket false).text ++ rest) = w ++ (toolCallOpenPrefix ++
        ((if bracket then [unit '>'] else []) ++ (body ++ rest))) := by
      simp only [Item.text,Bool.false_eq_true,if_false,List.append_assoc,List.nil_append]
    have hmatch : matchJsonEnd (body ++ rest) = some (inner,v ++ rest) := by
      rw [hb.eq,List.append_assoc,hb.matched]
    have hnext : nextCall (w ++ (toolCallOpenPrefix ++
        ((if bracket then [unit '>'] else []) ++ (body ++ rest)))) =
        some (⟨w,inner,.balanced⟩,trimStart rest) := by
      rw [nextCall,sharp_open.cut_marker hw.not_open]
      simp only [hb.skip,cut_eq_none.mpr hclose,hmatch,swallow_eq hb.blank hbrace]
    rw [htext]
    obtain ⟨x,hx,heq⟩ := exists_trimStart rest
    exact ⟨_,_,hnext,rfl,Ending.noConfusion,hb.toCall false,x,hx,heq⟩

/-- What is emitted is read back from any state on. -/
theorem readFrom_write {items : List Item} {w : Units} (hw : Emitted w items) (hr : Readable items)
    (st : Reading) :
    Same (readFrom st (w ++ write items))
      (st.plus (emittedCalls items) (segs st.calls.length w items)) := by
  induction items generalizing w st with
  | nil =>
    have hnone : nextCall w = none := by
      rw [nextCall,cut_eq_none.mpr (Unmarked.not_open hw)]
    have htext : w ++ write [] = w := List.append_nil w
    rw [htext,readFrom_none hnone]
    exact addProse_run hw st
  | cons item items ih =>
    have hwrite : write (item :: items) = item.text ++ write items := rfl
    rw [hwrite]
    cases item with
    | prose t =>
      rw [Item.text,← List.append_assoc]
      exact ih hw hr st
    | thinking t =>
      obtain ⟨hrun,⟨-,hclose⟩,hrest⟩ := hw
      have htext : w ++ ((Item.thinking t).text ++ write items) =
          w ++ (channelOpen ++ (t ++ (channelClose ++ write items))) := by
        simp only [Item.text,List.append_assoc]
      rw [htext,readFrom_thought hrun.not_open hrun.not_channelOpen hr.1 hclose]
      have h := ((addThought_run w t st).readFrom (write items)).trans (ih (w := []) hrest hr.2 _)
      rw [plus_plus,List.append_assoc] at h
      have hlen : (st.plus [] (proseSegment w ++ [.thinking (dropNewline t) false true])).calls =
          st.calls := List.append_nil _
      rw [hlen] at h
      exact h
    | call body bracket closer =>
      obtain ⟨hrun,hbody,hrest⟩ := hw
      obtain ⟨inner,v,hb⟩ := exists_body hbody
      obtain ⟨⟨before,found,ending⟩,after,hnext,rfl,he,hcall,x,hx,heq⟩ :=
        nextCall_written hrun hb bracket hr.1
      rw [readFrom_found hnext]
      have hfound := addFound_run hrun found he st
      rw [show toCall found false = toCall body false from hcall] at hfound
      have hafter := (hfound.symm.readFrom_blank hx after).symm
      rw [← heq] at hafter
      have h := hafter.trans (ih (w := []) hrest hr.2 _)
      rw [plus_plus,List.append_assoc] at h
      have hlen : (st.plus [toCall body false]
          (proseSegment before ++ [.call st.calls.length])).calls.length = st.calls.length + 1 := by
        simp only [Reading.plus,List.length_append,List.length_singleton]
      rw [hlen] at h
      exact h

end Rullama.ToolCalls
