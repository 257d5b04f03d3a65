import Rullama.ToolCalls.Scan

/-! # Reading on

The parser reads a text piece by piece from any state on. White space at the front of a text, and
the raw prose read before, make no difference to the calls and the segments.
-/
namespace Rullama.ToolCalls
open Text

def readFrom (st : Reading) (text : Units) : Reading :=
  addProse ((split nextCall text).1.foldl addFound st) (split nextCall text).2

variable {st st' : Reading} {text rest : Units}

theorem readFrom_found {f : Found} (h : nextCall text = some (f,rest)) (st : Reading) :
    readFrom st text = readFrom (addFound st f) rest := by
  rw [readFrom,split_of_some nextCall_shortens h]
  rfl

theorem readFrom_none (h : nextCall text = none) (st : Reading) :
    readFrom st text = addProse st text := by
  rw [readFrom,split_of_none h]
  rfl

theorem addProse_thought {t : Units × Units × Bool} (h : nextThought text = some (t,rest))
    (st : Reading) : addProse st text = addProse (addThought st t) rest := by
  rw [addProse,split_of_some nextThought_shortens h]
  rfl

theorem addProse_none (h : nextThought text = none) (st : Reading) :
    addProse st text = addText st text := by
  rw [addProse,split_of_none h]
  rfl

/-! ## Text in front of a marker -/

theorem sharp_channelOpen : Sharp lt channelOpen := ⟨by decide,by decide⟩

theorem sharp_channelClose : Sharp lt channelClose := ⟨by decide,by decide⟩

theorem nextCall_through {u : Units} (h : Through toolCallOpenPrefix u text) :
    nextCall (u ++ text) =
      (nextCall text).map (fun p => ({ p.1 with before := u ++ p.1.before },p.2)) := by
  rw [nextCall,nextCall,h]
  cases cut toolCallOpenPrefix text with
  | none => rfl
  | some p =>
    simp only [Option.map_some]
    cases cut toolCallClose (skipBracket p.2) with
    | some q => rfl
    | none => cases matchJsonEnd (skipBracket p.2) <;> rfl

theorem nextThought_through {u : Units} (h : Through channelOpen u text) :
    nextThought (u ++ text) = (nextThought text).map (fun p => ((u ++ p.1.1,p.1.2),p.2)) := by
  rw [nextThought,nextThought,h]
  cases cut channelOpen text with
  | none => rfl
  | some p =>
    simp only [Option.map_some]
    cases cut channelClose p.2 <;> rfl

/-- A block of reasoning without a call in it. -/
theorem readFrom_thought {w t : Units} (hw : ¬ toolCallOpenPrefix <:+: w)
    (hw' : ¬ channelOpen <:+: w) (ht : ¬ toolCallOpenPrefix <:+: t) (ht' : ¬ channelClose <:+: t)
    (st : Reading) (text : Units) :
    readFrom st (w ++ (channelOpen ++ (t ++ (channelClose ++ text)))) =
      readFrom (addThought st (w,t,true)) text := by
  have hopen : channelOpen = lt :: units "|channel>thought" := by decide
  have hclose : channelClose = lt :: units "channel|>" := by decide
  have hthought (s : Units) :
      nextThought (w ++ (channelOpen ++ (t ++ (channelClose ++ s)))) = some ((w,t,true),s) := by
    rw [nextThought,sharp_channelOpen.cut_marker hw']
    simp only [sharp_channelClose.cut_marker ht']
  have hthrough : Through toolCallOpenPrefix (w ++ (channelOpen ++ (t ++ channelClose))) text := by
    refine .append (sharp_open.cut_append hw ?_) (.append ?_ (.append (sharp_open.cut_append ht ?_) ?_))
    · rw [List.append_assoc]
      exact sharp_channelOpen.startsAt _
    · rw [hopen]
      exact through_marker sharp_open.head (by decide) 2 (by decide) (by decide) (by decide) _
    · exact sharp_channelClose.startsAt _
    · rw [hclose]
      exact through_marker sharp_open.head (by decide) 2 (by decide) (by decide) (by decide) _
  have hassoc (s : Units) : w ++ (channelOpen ++ (t ++ channelClose)) ++ s =
      w ++ (channelOpen ++ (t ++ (channelClose ++ s))) := by
    simp only [List.append_assoc]
  have hnext := nextCall_through hthrough
  rw [hassoc] at hnext
  cases hx : nextCall text with
  | none =>
    rw [hx] at hnext
    rw [readFrom_none hnext,readFrom_none hx,addProse_thought (hthought text)]
  | some p =>
    rw [hx] at hnext
    rw [readFrom_found hnext,readFrom_found hx,addFound,addFound,hassoc,
      addProse_thought (hthought p.1.before)]
    rfl

/-! ## What makes no difference -/

/-- The same but for the raw prose. -/
structure Same (st st' : Reading) : Prop where
  calls : st.calls = st'.calls
  pending : st.pending = st'.pending
  segments : st.segments = st'.segments

theorem Same.refl (st : Reading) : Same st st := ⟨rfl,rfl,rfl⟩

theorem Same.symm (h : Same st st') : Same st' st :=
  ⟨h.calls.symm,h.pending.symm,h.segments.symm⟩

theorem Same.trans {st'' : Reading} (h : Same st st') (h' : Same st' st'') : Same st st'' :=
  ⟨h.calls.trans h'.calls,h.pending.trans h'.pending,h.segments.trans h'.segments⟩

theorem Same.addText (h : Same st st') {t t' : Units} (ht : trim t = trim t') :
    Same (addText st t) (addText st' t') := by
  refine ⟨h.calls,h.pending,?_⟩
  simp only [ToolCalls.addText,ht,h.segments]

theorem Same.addThought (h : Same st st') {b b' : Units} (hb : trim b = trim b')
    (t : Units × Bool) : Same (addThought st (b,t)) (addThought st' (b',t)) := by
  have hs := h.addText hb
  refine ⟨hs.calls,hs.pending,?_⟩
  simp only [ToolCalls.addThought,hs.segments]

theorem Same.addProse (h : Same st st') (text : Units) :
    Same (addProse st text) (addProse st' text) := by
  rw [ToolCalls.addProse,ToolCalls.addProse]
  refine Same.addText ?_ rfl
  induction (split nextThought text).1 generalizing st st' with
  | nil => exact h
  | cons t ts ih => exact ih (h.addThought rfl t.2)

theorem Same.addProse_blank (h : Same st st') {w : Units} (hw : Blank w) (text : Units) :
    Same (ToolCalls.addProse st (w ++ text)) (ToolCalls.addProse st' text) := by
  have hlt : lt ∉ w := fun hmem => absurd (hw lt hmem) (by decide)
  have hnext := nextThought_through (through_of_not_mem sharp_channelOpen.head hlt text)
  cases ht : nextThought text with
  | none =>
    rw [ht] at hnext
    rw [addProse_none hnext,addProse_none ht]
    exact h.addText (trim_append_left hw text)
  | some p =>
    rw [ht] at hnext
    rw [addProse_thought hnext,addProse_thought ht]
    exact (h.addThought (trim_append_left hw _) _).addProse _

theorem Same.addCall (h : Same st st') (c : ToolCall) : Same (addCall st c) (addCall st' c) := by
  refine ⟨?_,h.pending,?_⟩
  · simp only [ToolCalls.addCall,h.calls]
  · simp only [ToolCalls.addCall,h.calls,h.segments]

theorem Same.addFound (h : Same st st') {b b' : Units}
    (hb : ∀ {s s' : Reading}, Same s s' → Same (ToolCalls.addProse s b) (ToolCalls.addProse s' b'))
    (inner : Units) (ending : Ending) :
    Same (addFound st ⟨b,inner,ending⟩) (addFound st' ⟨b',inner,ending⟩) := by
  have hs := (hb h).addCall (toCall inner (ending = .streaming))
  refine ⟨hs.calls,?_,hs.segments⟩
  exact congrArg (· || decide (ending = .streaming)) hs.pending

theorem Same.readFrom (h : Same st st') (text : Units) :
    Same (readFrom st text) (readFrom st' text) := by
  rw [ToolCalls.readFrom,ToolCalls.readFrom]
  refine Same.addProse ?_ _
  induction (split nextCall text).1 generalizing st st' with
  | nil => exact h
  | cons f fs ih => exact ih (h.addFound (fun hs => hs.addProse f.before) f.inner f.ending)

theorem Same.readFrom_blank (h : Same st st') {w : Units} (hw : Blank w) (text : Units) :
    Same (ToolCalls.readFrom st (w ++ text)) (ToolCalls.readFrom st' text) := by
  have hlt : lt ∉ w := fun hmem => absurd (hw lt hmem) (by decide)
  have hnext := nextCall_through (through_of_not_mem sharp_open.head hlt text)
  cases ht : nextCall text with
  | none =>
    rw [ht] at hnext
    rw [readFrom_none hnext,readFrom_none ht]
    exact h.addProse_blank hw text
  | some p =>
    rw [ht] at hnext
    rw [readFrom_found hnext,readFrom_found ht]
    exact Same.readFrom (h.addFound (fun hs => hs.addProse_blank hw _) _ _) p.2

end Rullama.ToolCalls
