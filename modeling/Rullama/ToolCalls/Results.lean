import Mathlib.Data.List.Nodup
import Rullama.ToolCalls.Streaming

/-! # Executed results

The results of executed tools are spliced into the reply behind their calls. Each has to reach its
own call, and nothing of it may show anywhere else.
-/
namespace Rullama.ToolCalls
open Text

/-- What a reply with executed tools is made of, with the white space between. -/
inductive ReplyItem where
  | call (body : Units)
  | response (name summary : Units)
  | gap (w : Units)

namespace ReplyItem

def text : ReplyItem → Units
  | .call body => toolCallOpen ++ (body ++ toolCallClose)
  | .response name summary => toolResponseBlock name summary
  | .gap w => w

def call? : ReplyItem → Option ToolCall
  | .call body => some (toCall body false)
  | _ => none

def answer? : ReplyItem → Option ToolResult
  | .response name summary => some ⟨some name,trim summary⟩
  | _ => none

end ReplyItem

def emit (items : List ReplyItem) : Units := items.flatMap ReplyItem.text

def calls (items : List ReplyItem) : List ToolCall := items.filterMap ReplyItem.call?

def answers (items : List ReplyItem) : List ToolResult := items.filterMap ReplyItem.answer?

def names (items : List ReplyItem) : List Units := (calls items).map ToolCall.name

/-! ## Replies -/

/-- A result stands after its call, and is the first one for it. -/
def ReplyItem.Follows (before : List ReplyItem) : ReplyItem → Prop
  | .call body => ¬ toolCallClose <:+: body
  | .response name _ =>
    name ∈ names before ∧ some name ∉ (answers before).map ToolResult.name ∧ name ≠ [] ∧
      unit '"' ∉ name
  | .gap w => Blank w

def Follow (before : List ReplyItem) : List ReplyItem → Prop
  | [] => True
  | item :: items => item.Follows before ∧ Follow (before ++ [item]) items

/-- No `<tool_response>` begins within a call. -/
def Quiet (rest : Units) : List ReplyItem → Prop
  | [] => True
  | .call body :: items =>
    (∀ y ∈ body.tails, (responseSpan (y ++ (toolCallClose ++ (emit items ++ rest)))).isNone) ∧
      Quiet rest items
  | _ :: items => Quiet rest items

/-- The summary does not hold the closing tag. -/
def ReplyItem.Clean : ReplyItem → Prop
  | .response _ summary => ¬ toolResponseClose <:+: summary
  | _ => True

instance (before : List ReplyItem) : (item : ReplyItem) → Decidable (item.Follows before)
  | .call body => inferInstanceAs (Decidable (¬ toolCallClose <:+: body))
  | .response _ _ => inferInstanceAs (Decidable (_ ∧ _ ∧ _ ∧ _))
  | .gap w => inferInstanceAs (Decidable (Blank w))

instance decidableFollow :
    (before items : List ReplyItem) → Decidable (Follow before items)
  | _,[] => isTrue trivial
  | before,item :: items => @instDecidableAnd _ _ _ (decidableFollow (before ++ [item]) items)

instance decidableQuiet (rest : Units) : (items : List ReplyItem) → Decidable (Quiet rest items)
  | [] => isTrue trivial
  | .call _ :: items => @instDecidableAnd _ _ (List.decidableBAll _ _) (decidableQuiet rest items)
  | .response _ _ :: items => decidableQuiet rest items
  | .gap _ :: items => decidableQuiet rest items

instance : (item : ReplyItem) → Decidable item.Clean
  | .call _ => isTrue trivial
  | .response _ summary => inferInstanceAs (Decidable (¬ toolResponseClose <:+: summary))
  | .gap _ => isTrue trivial

/-- Closed calls with distinct names, and results behind them. -/
structure Reply (lower : Units → Units) (items : List ReplyItem) : Prop where
  follow : Follow [] items
  nodup : ((names items).map lower).Nodup
  quiet : Quiet [] items

/-- A call with the result that is meant for it. -/
def answered (rs : List ToolResult) (c : ToolCall) : ToolCall :=
  match rs.find? (·.name = some c.name) with
  | some r => { c with result := some r.text }
  | none => c

/-- Every call has exactly its own result, and nothing else is left of the results. -/
structure Delivered (lower : Units → Units) (items : List ReplyItem) : Prop where
  calls : (parseToolCalls lower (emit items)).calls = (calls items).map (answered (answers items))
  segments : (parseToolCalls lower (emit items)).segments =
    ((ToolCalls.calls items).map (answered (answers items))).map .call
  prose : trim (parseToolCalls lower (emit items)).prose = []
  pending : (parseToolCalls lower (emit items)).pending = false

/-! ## Taking the results out -/

/-- What is left of an item without the results. -/
def ReplyItem.said : ReplyItem → Units
  | .response _ _ => []
  | item => item.text

def said (items : List ReplyItem) : Units := items.flatMap ReplyItem.said

theorem sharp_responseClose : Sharp lt toolResponseClose := ⟨by decide,by decide⟩

theorem block_tag {name : Units} (hq : unit '"' ∉ name) (summary rest : Units) :
    ∃ tag, ResponseTag (some name) tag ∧
      toolResponseBlock name summary ++ rest = tag ++ (summary ++ (toolResponseClose ++ rest)) := by
  refine ⟨_,.named (w := [unit ' ']) (List.cons_ne_nil _ _) (by decide) hq,?_⟩
  have hopen : units "<tool_response for=\"" = responseTag ++ ([unit ' '] ++ units "for=\"") := by
    decide
  have hend : units "\">" = [unit '"'] ++ [unit '>'] := by decide
  rw [toolResponseBlock,hopen,hend]
  simp only [List.append_assoc]

/-- A block is read up to the first closer, wherever that comes from. -/
theorem responseSpan_block {name : Units} (hq : unit '"' ∉ name) (rest : Units) {t summary : Units}
    (ht : ¬ toolResponseClose <:+: t) {q : Units}
    (hsummary : summary ++ (toolResponseClose ++ rest) = t ++ (toolResponseClose ++ q)) :
    responseSpan (toolResponseBlock name summary ++ rest) = some (⟨some name,trim t⟩,q) := by
  obtain ⟨tag,htag,heq⟩ := block_tag hq summary rest
  rw [heq,responseSpan,responseOpen_of_tag htag]
  simp only [hsummary,sharp_responseClose.cut_marker ht,Option.map_some]

theorem copied_call {body rest : Units}
    (hquiet : ∀ y ∈ body.tails, (responseSpan (y ++ (toolCallClose ++ rest))).isNone) :
    Copied (toolCallOpen ++ (body ++ toolCallClose)) rest := by
  have hopen : toolCallOpen = lt :: units "tool_call>" := by decide
  have hclose : toolCallClose = lt :: units "/tool_call>" := by decide
  refine .append ?_ (.append (copied_of_spans ?_) ?_)
  · rw [hopen]
    exact copied_marker (by decide) 7 (by decide) (by decide) (by decide) _
  · exact fun y hy => Option.isNone_iff_eq_none.mp (hquiet y hy)
  · rw [hclose]
    exact copied_marker (by decide) 7 (by decide) (by decide) (by decide) _

theorem not_mem_of_blank {w : Units} (hw : Blank w) : lt ∉ w :=
  fun h => absurd (hw lt h) (by decide)

/-- The replacement takes out the results as they were put in. -/
theorem clean_emit {before items : List ReplyItem} {rest : Units} (hf : Follow before items)
    (hclean : ∀ item ∈ items, item.Clean) (hq : Quiet rest items) :
    cleaned (emit items ++ rest) = said items ++ cleaned rest ∧
      results (emit items ++ rest) = answers items ++ results rest := by
  induction items generalizing before with
  | nil => exact ⟨rfl,rfl⟩
  | cons item items ih =>
    rw [List.forall_mem_cons] at hclean
    have hemit : emit (item :: items) ++ rest = item.text ++ (emit items ++ rest) :=
      List.append_assoc ..
    rw [hemit]
    cases item with
    | call body =>
      have hcopied := copied_call hq.1
      obtain ⟨hc,hr⟩ := ih hf.2 hclean.2 hq.2
      refine ⟨?_,?_⟩
      · rw [ReplyItem.text,hcopied.cleaned,hc,← List.append_assoc]
        rfl
      · rw [ReplyItem.text,hcopied.results,hr]
        rfl
    | response name summary =>
      obtain ⟨hc,hr⟩ := ih hf.2 hclean.2 hq
      have hspan := responseSpan_block hf.1.2.2.2 (emit items ++ rest) hclean.1 rfl
      refine ⟨?_,?_⟩
      · rw [ReplyItem.text,cleaned_span hspan,hc]
        rfl
      · rw [ReplyItem.text,results_span hspan,hr]
        rfl
    | gap w =>
      have hcopied := copied_of_not_mem (not_mem_of_blank hf.1) (emit items ++ rest)
      obtain ⟨hc,hr⟩ := ih hf.2 hclean.2 hq
      refine ⟨?_,?_⟩
      · rw [ReplyItem.text,hcopied.cleaned,hc,← List.append_assoc]
        rfl
      · rw [ReplyItem.text,hcopied.results,hr]
        rfl

/-! ## Reading what is left -/

/-- The calls of a reply with the text before each of them, and the text behind the last. -/
def scanned (w : Units) : List ReplyItem → List Found × Units
  | [] => ([],w)
  | .call body :: items => (⟨w,body,.closed⟩ :: (scanned [] items).1,(scanned [] items).2)
  | .response _ _ :: items => scanned w items
  | .gap g :: items => scanned (w ++ g) items

theorem split_said {before items : List ReplyItem} {w : Units} (hw : Blank w)
    (hf : Follow before items) (rest : Units) :
    split nextCall (w ++ (said items ++ rest)) =
      ((scanned w items).1 ++ (split nextCall ((scanned w items).2 ++ rest)).1,
        (split nextCall ((scanned w items).2 ++ rest)).2) := by
  induction items generalizing before w with
  | nil => rfl
  | cons item items ih =>
    cases item with
    | call body =>
      have hopen : toolCallOpen = toolCallOpenPrefix ++ [unit '>'] := by decide
      have hnext : nextCall (w ++ (said (.call body :: items) ++ rest)) =
          some (⟨w,body,.closed⟩,said items ++ rest) := by
        have htext : said (.call body :: items) ++ rest = toolCallOpenPrefix ++
            (unit '>' :: (body ++ (toolCallClose ++ (said items ++ rest)))) := by
          rw [said,List.flatMap_cons,ReplyItem.said,ReplyItem.text,hopen,← said]
          · simp only [List.append_assoc]
            rfl
          · exact nofun
        rw [htext]
        refine nextCall_closed (fun hin => not_mem_of_blank hw (hin.subset (by decide))) ?_ hf.1
        rfl
      have hrest := ih (w := []) blank_nil hf.2
      rw [List.nil_append] at hrest
      rw [split_of_some nextCall_shortens hnext,hrest]
      rfl
    | response name summary => exact ih hw hf.2
    | gap g =>
      have hblank : Blank (w ++ g) := by
        intro c hc
        exact (List.mem_append.mp hc).elim (hw c) (hf.1 c)
      have htext : w ++ (said (.gap g :: items) ++ rest) = w ++ g ++ (said items ++ rest) := by
        rw [said,List.flatMap_cons,← said,List.append_assoc,List.append_assoc]
        rfl
      rw [htext]
      exact ih hblank hf.2

theorem scanned_call (w : Units) (items : List ReplyItem) :
    (scanned w items).1.map Found.call = calls items := by
  induction items generalizing w with
  | nil => rfl
  | cons item items ih =>
    cases item with
    | call body => exact congrArg (toCall body false :: ·) (ih [])
    | response name summary => exact ih w
    | gap g => exact ih (w ++ g)

theorem scanned_blank {before items : List ReplyItem} {w : Units} (hw : Blank w)
    (hf : Follow before items) :
    (∀ f ∈ (scanned w items).1, Blank f.before ∧ f.ending = .closed) ∧
      Blank (scanned w items).2 := by
  induction items generalizing before w with
  | nil => exact ⟨nofun,hw⟩
  | cons item items ih =>
    cases item with
    | call body =>
      obtain ⟨hall,hblank⟩ := ih (w := []) blank_nil hf.2
      exact ⟨List.forall_mem_cons.mpr ⟨⟨hw,rfl⟩,hall⟩,hblank⟩
    | response name summary => exact ih hw hf.2
    | gap g =>
      refine ih (fun c hc => ?_) hf.2
      exact (List.mem_append.mp hc).elim (hw c) (hf.1 c)

/-- Only calls have been read, with white space around them. -/
structure Bare (st : Reading) : Prop where
  prose : Blank st.prose
  pending : st.pending = false
  segments : st.segments = (List.range st.calls.length).map .call

theorem addProse_blank {w : Units} (hw : Blank w) (st : Reading) :
    addProse st w = { st with prose := st.prose ++ w } := by
  have hnone : nextThought w = none := by
    rw [nextThought,cut_eq_none.mpr (fun hin => not_mem_of_blank hw (hin.subset (by decide)))]
  rw [addProse,split_of_none hnone]
  simp only [List.foldl_nil,addText,trim_of_blank hw,if_true]

theorem addProse_bare {st : Reading} (h : Bare st) {w : Units} (hw : Blank w) :
    Bare (addProse st w) := by
  rw [addProse_blank hw]
  exact ⟨fun c hc => (List.mem_append.mp hc).elim (h.prose c) (hw c),h.pending,h.segments⟩

theorem addFound_bare {st : Reading} (h : Bare st) {f : Found} (hb : Blank f.before)
    (he : f.ending = .closed) : Bare (addFound st f) := by
  have hp := addProse_bare h hb
  refine ⟨hp.prose,?_,?_⟩
  · simp only [addFound,addCall,hp.pending,he]
    rfl
  · simp only [addFound,addCall,hp.segments,List.length_append,List.length_singleton,
      List.range_succ,List.map_append,List.map_singleton]

theorem read_bare {items : List ReplyItem} (hf : Follow [] items) :
    Bare (read (said items)) ∧ (read (said items)).calls = calls items := by
  have hsplit := split_said (w := []) blank_nil hf []
  obtain ⟨hall,hblank⟩ := scanned_blank (w := []) blank_nil hf
  have hnone : nextCall (scanned [] items).2 = none := by
    rw [nextCall,cut_eq_none.mpr (fun hin => not_mem_of_blank hblank (hin.subset (by decide)))]
  rw [List.append_nil,List.append_nil,List.nil_append,split_of_none hnone,List.append_nil] at hsplit
  refine ⟨?_,?_⟩
  · rw [read,hsplit]
    refine addProse_bare ?_ hblank
    have hfold : ∀ (fs : List Found) (st : Reading), Bare st →
        (∀ f ∈ fs, Blank f.before ∧ f.ending = .closed) → Bare (fs.foldl addFound st) := by
      intro fs
      induction fs with
      | nil => exact fun _ h _ => h
      | cons f fs ih =>
        intro st h hfs
        rw [List.forall_mem_cons] at hfs
        exact ih _ (addFound_bare h hfs.1.1 hfs.1.2) hfs.2
    exact hfold _ {} ⟨blank_nil,rfl,rfl⟩ hall
  · rw [read_calls,founds,hsplit,scanned_call]

/-! ## Reaching the right call -/

theorem answered_name (rs : List ToolResult) (c : ToolCall) : (answered rs c).name = c.name := by
  rw [answered]
  split <;> rfl

theorem answered_nil (c : ToolCall) : answered [] c = c := by
  rw [answered,List.find?_nil]

theorem answered_cons_of_eq {r : ToolResult} {c : ToolCall} (h : r.name = some c.name)
    (rs : List ToolResult) : answered (r :: rs) c = { c with result := some r.text } := by
  rw [answered,List.find?_cons_of_pos (by simpa using h)]

theorem answered_cons_of_ne {r : ToolResult} {c : ToolCall} (h : r.name ≠ some c.name)
    (rs : List ToolResult) : answered (r :: rs) c = answered rs c := by
  rw [answered,List.find?_cons_of_neg (by simpa using h)]
  rfl

theorem answered_of_forall_ne {rs : List ToolResult} {c : ToolCall}
    (h : ∀ r ∈ rs, r.name ≠ some c.name) : answered rs c = c := by
  have hnone : rs.find? (·.name = some c.name) = none := by
    rw [List.find?_eq_none]
    simpa using h
  rw [answered,hnone]

theorem answered_append {rs : List ToolResult} {c : ToolCall} (h : ∀ r ∈ rs, r.name ≠ some c.name)
    (rs' : List ToolResult) : answered (rs ++ rs') c = answered rs' c := by
  induction rs with
  | nil => rfl
  | cons r rs ih =>
    rw [List.forall_mem_cons] at h
    rw [List.cons_append,answered_cons_of_ne h.1,ih h.2]

theorem findIdx?_modify {p : ToolCall → Bool} (key : ToolCall → Units) (k : Units)
    {cs : List ToolCall} (hn : (cs.map key).Nodup) (hp : ∀ c ∈ cs, p c = true → key c = k)
    (hex : ∃ c ∈ cs, p c = true) (f : ToolCall → ToolCall) (extra : List ToolCall) :
    ∃ i, (cs ++ extra).findIdx? p = some i ∧
      (cs ++ extra).modify i f = cs.map (fun c => if p c then f c else c) ++ extra := by
  induction cs with
  | nil =>
    obtain ⟨c,hc,-⟩ := hex
    cases hc
  | cons c cs ih =>
    rw [List.map_cons,List.nodup_cons] at hn
    rw [List.forall_mem_cons] at hp
    rw [List.cons_append,List.findIdx?_cons]
    cases hc : p c with
    | true =>
      refine ⟨0,rfl,?_⟩
      have hrest : cs.map (fun c => if p c then f c else c) = cs := by
        refine (List.map_congr_left (fun d hd => ?_)).trans (List.map_id cs)
        cases hpd : p d with
        | false => rfl
        | true =>
          refine absurd ?_ hn.1
          rw [hp.1 hc,← hp.2 d hd hpd]
          exact List.mem_map_of_mem hd
      rw [List.map_cons,hrest,hc]
      rfl
    | false =>
      have hex' : ∃ d ∈ cs, p d = true := by
        obtain ⟨d,hd,hpd⟩ := hex
        rcases List.mem_cons.mp hd with rfl | hd
        · rw [hc] at hpd
          cases hpd
        · exact ⟨d,hd,hpd⟩
      obtain ⟨i,hi,hmod⟩ := ih hn.2 hp.2 hex'
      refine ⟨i + 1,?_,?_⟩
      · rw [hi]
        rfl
      · rw [List.modify_succ_cons,hmod,List.map_cons,hc]
        rfl

section Attach

variable {lower : Units → Units}

/-- A result goes to the call of its name. -/
theorem attach_named {cs extra : List ToolCall} {pos : ℕ} {r : ToolResult} {c : ToolCall}
    (hn : (cs.map (fun c => lower c.name)).Nodup) (hc : c ∈ cs) (hr : r.name = some c.name)
    (hne : c.name ≠ []) (hnone : c.result = none) :
    attach lower (cs ++ extra,pos) r = (cs.map (answered [r]) ++ extra,pos) := by
  obtain ⟨i,hi,hmod⟩ := findIdx?_modify (fun c => lower c.name) (lower c.name)
    (p := fun d => d.result.isNone && lower d.name = lower c.name) hn (by simp)
    ⟨c,hc,by simp [hnone]⟩ (fun d => { d with result := some r.text }) extra
  have hname : byName lower (cs ++ extra) r.name = some i := by
    rw [hr,byName,if_neg hne,hi]
  rw [attach,hname]
  simp only [hmod]
  refine congrArg (fun l => (l ++ extra,pos)) (List.map_congr_left (fun d hd => ?_))
  by_cases hdc : lower d.name = lower c.name
  · obtain rfl : d = c := List.inj_on_of_nodup_map hn hd hc hdc
    rw [answered_cons_of_eq hr]
    simp [hnone]
  · have hne : r.name ≠ some d.name := by
      intro h
      rw [hr,Option.some.injEq] at h
      exact hdc (congrArg lower h.symm)
    rw [answered_cons_of_ne hne,answered_nil]
    simp [hdc]

/-- Results with distinct names go to the calls of these names. -/
theorem foldl_attach {cs : List ToolCall} {rs : List ToolResult}
    (hn : (cs.map (fun c => lower c.name)).Nodup) (hrs : (rs.map ToolResult.name).Nodup)
    (hall : ∀ r ∈ rs, ∃ c ∈ cs, r.name = some c.name ∧ c.name ≠ [] ∧ c.result = none)
    (extra : List ToolCall) (pos : ℕ) : rs.foldl (attach lower) (cs ++ extra,pos) = (cs.map (answered rs) ++ extra,pos) := by
  induction rs generalizing cs with
  | nil =>
    have hid : cs.map (answered []) = cs :=
      (List.map_congr_left (fun c _ => answered_nil c)).trans (List.map_id cs)
    rw [hid]
    rfl
  | cons r rs ih =>
    rw [List.map_cons,List.nodup_cons] at hrs
    rw [List.forall_mem_cons] at hall
    obtain ⟨⟨c,hc,hr,hne,hnone⟩,hall⟩ := hall
    have hlater : ∀ d : ToolCall, r.name = some d.name → ∀ r' ∈ rs, r'.name ≠ some d.name := by
      intro d hd r' hr' heq
      refine hrs.1 ?_
      rw [hd,← heq]
      exact List.mem_map_of_mem hr'
    rw [List.foldl_cons,attach_named hn hc hr hne hnone,ih]
    · refine congrArg (fun l => (l ++ extra,pos)) ?_
      rw [List.map_map]
      refine List.map_congr_left (fun d _ => ?_)
      by_cases hd : r.name = some d.name
      · rw [Function.comp_apply,answered_cons_of_eq hd,answered_cons_of_eq hd]
        exact answered_of_forall_ne (hlater d hd)
      · rw [Function.comp_apply,answered_cons_of_ne hd,answered_nil,answered_cons_of_ne hd]
    · rw [List.map_map]
      refine (congrArg List.Nodup (List.map_congr_left (fun d _ => ?_))).mpr hn
      exact congrArg lower (answered_name [r] d)
    · exact hrs.2
    · intro r' hr'
      obtain ⟨d,hd,hr'd,hne,hnone⟩ := hall r' hr'
      refine ⟨d,List.mem_map.mpr ⟨d,hd,?_⟩,hr'd,hne,hnone⟩
      have hrd : r.name ≠ some d.name := fun h => hlater d h r' hr' hr'd
      rw [answered_cons_of_ne hrd,answered_nil]

theorem byName_result {cs : List ToolCall} {name : Option Units} {i : ℕ} {c : ToolCall}
    (h : byName lower cs name = some i) (hi : cs[i]? = some c) : c.result.isNone = true := by
  unfold byName at h
  split at h
  · cases h
  · split at h
    · cases h
    · rw [List.findIdx?_eq_some_iff_getElem] at h
      obtain ⟨hlt,hp,-⟩ := h
      rw [List.getElem?_eq_getElem hlt,Option.some.injEq] at hi
      rw [hi] at hp
      simp only [Bool.and_eq_true] at hp
      exact hp.1

theorem takeWhile_length {p : ToolCall → Bool} {l : List ToolCall} {c : ToolCall}
    (h : l[(l.takeWhile p).length]? = some c) : p c = false := by
  induction l with
  | nil => cases h
  | cons d l ih =>
    cases hd : p d with
    | false =>
      rw [List.takeWhile_cons_of_neg (by simp [hd])] at h
      cases h
      exact hd
    | true =>
      rw [List.takeWhile_cons_of_pos hd] at h
      exact ih h

/-- A call that has its result keeps it. -/
theorem attach_keeps {st : List ToolCall × ℕ} {i : ℕ} {c : ToolCall} (hi : st.1[i]? = some c)
    (hc : c.result.isSome) (r : ToolResult) : (attach lower st r).1[i]? = some c := by
  rw [attach]
  split
  · rename_i j hj
    have hne : j ≠ i := by
      rintro rfl
      have hnone := byName_result hj hi
      rw [Option.isNone_iff_eq_none.mp hnone] at hc
      cases hc
    rw [List.getElem?_modify_ne _ _ hne,hi]
  · rw [List.getElem?_modify_ne,hi]
    intro heq
    have hlast := takeWhile_length (p := fun c : ToolCall => c.result.isSome) (l := st.1.drop st.2)
      (c := c) (by rw [List.getElem?_drop,heq,hi])
    rw [hc] at hlast
    cases hlast

theorem foldl_attach_keeps {st : List ToolCall × ℕ} {i : ℕ} {c : ToolCall}
    (hi : st.1[i]? = some c) (hc : c.result.isSome) (rs : List ToolResult) :
    (rs.foldl (attach lower) st).1[i]? = some c := by
  induction rs generalizing st with
  | nil => exact hi
  | cons r rs ih => exact ih (attach_keeps hi hc r)

end Attach

/-! ## Replies as a whole -/

theorem follow_append {before pre items : List ReplyItem} (h : Follow before (pre ++ items)) :
    Follow before pre ∧ Follow (before ++ pre) items := by
  induction pre generalizing before with
  | nil => exact ⟨trivial,by rwa [List.append_nil]⟩
  | cons item pre ih =>
    obtain ⟨hpre,hitems⟩ := ih h.2
    refine ⟨⟨h.1,hpre⟩,?_⟩
    rwa [List.append_assoc] at hitems

theorem emit_append (pre items : List ReplyItem) : emit (pre ++ items) = emit pre ++ emit items :=
  List.flatMap_append

theorem calls_append (pre items : List ReplyItem) :
    calls (pre ++ items) = calls pre ++ calls items :=
  List.filterMap_append

theorem answers_append (pre items : List ReplyItem) :
    answers (pre ++ items) = answers pre ++ answers items :=
  List.filterMap_append

theorem quiet_append {rest : Units} {pre items : List ReplyItem} (h : Quiet rest (pre ++ items)) :
    Quiet (emit items ++ rest) pre := by
  induction pre with
  | nil => trivial
  | cons item pre ih =>
    cases item with
    | call body =>
      refine ⟨fun y hy => ?_,ih h.2⟩
      have hy : (responseSpan (y ++ (toolCallClose ++ (emit (pre ++ items) ++ rest)))).isNone :=
        h.1 y hy
      rwa [emit_append,List.append_assoc] at hy
    | response name summary => exact ih h
    | gap w => exact ih h

/-- The results belong to distinct calls. -/
structure Matched (items : List ReplyItem) : Prop where
  nodup : ((answers items).map ToolResult.name).Nodup
  mem : ∀ r ∈ answers items, ∃ c ∈ calls items, r.name = some c.name ∧ c.name ≠ []

theorem matched_append {before items : List ReplyItem} (hb : Matched before)
    (hf : Follow before items) : Matched (before ++ items) := by
  induction items generalizing before with
  | nil => rwa [List.append_nil]
  | cons item items ih =>
    rw [List.append_cons]
    refine ih ?_ hf.2
    have hcalls := calls_append before [item]
    have hanswers := answers_append before [item]
    have hkeep : ∀ r ∈ answers before,
        ∃ c ∈ calls before ++ calls [item], r.name = some c.name ∧ c.name ≠ [] := by
      intro r hr
      obtain ⟨c,hc,hname⟩ := hb.mem r hr
      exact ⟨c,List.mem_append_left _ hc,hname⟩
    cases item with
    | call body =>
      refine ⟨?_,?_⟩
      · rw [hanswers]
        exact (List.append_nil _).symm ▸ hb.nodup
      · rw [hanswers,hcalls]
        exact (List.append_nil _).symm ▸ hkeep
    | response name summary =>
      obtain ⟨hmem,hnot,hne,-⟩ := hf.1
      obtain ⟨c,hc,rfl⟩ := List.mem_map.mp hmem
      refine ⟨?_,?_⟩
      · rw [hanswers,List.map_append,List.nodup_append]
        refine ⟨hb.nodup,List.nodup_singleton _,?_⟩
        rintro _ ha _ hb rfl
        rw [List.mem_singleton.mp hb] at ha
        exact hnot ha
      · rw [hanswers,hcalls]
        intro r hr
        rcases List.mem_append.mp hr with hr | hr
        · exact hkeep r hr
        · rw [List.mem_singleton.mp hr]
          exact ⟨c,List.mem_append_left _ hc,rfl,hne⟩
    | gap w =>
      refine ⟨?_,?_⟩
      · rw [hanswers]
        exact (List.append_nil _).symm ▸ hb.nodup
      · rw [hanswers,hcalls]
        exact (List.append_nil _).symm ▸ hkeep

theorem Matched.of_follow {items : List ReplyItem} (hf : Follow [] items) : Matched items :=
  @matched_append [] _ ⟨List.nodup_nil,nofun⟩ hf

theorem calls_result {items : List ReplyItem} {c : ToolCall} (hc : c ∈ calls items) :
    c.result = none := by
  obtain ⟨item,-,hitem⟩ := List.mem_filterMap.mp hc
  cases item with
  | call body =>
    cases hitem
    exact congrArg ToolCall.result (toCall_bare body false).symm
  | response name summary => cases hitem
  | gap w => cases hitem

theorem includes_of_isInfix {m s : Units} (h : m <:+: s) : includes m s = true := by
  cases hcut : cut m s with
  | none => exact absurd h (cut_eq_none.mp hcut)
  | some p =>
    rw [includes,hcut]
    rfl

theorem plain_emit {items : List ReplyItem} (h : calls items ≠ []) :
    plain (emit items) = false := by
  obtain ⟨c,hc⟩ := List.exists_mem_of_ne_nil _ h
  obtain ⟨item,hmem,hitem⟩ := List.mem_filterMap.mp hc
  have hopen : toolCallOpenPrefix <:+: emit items := by
    have hin : item.text <:+: emit items := by
      rw [emit,List.flatMap_def]
      exact List.infix_of_mem_flatten (List.mem_map_of_mem hmem)
    cases item with
    | call body =>
      have htext : toolCallOpen = toolCallOpenPrefix ++ [unit '>'] := by decide
      refine (List.IsPrefix.isInfix ?_).trans hin
      rw [ReplyItem.text,htext,List.append_assoc]
      exact List.prefix_append _ _
    | response name summary => cases hitem
    | gap w => cases hitem
  have hne : emit items ≠ [] := by
    intro hnil
    rw [hnil,List.infix_nil] at hopen
    exact absurd hopen (by decide)
  rw [plain,includes_of_isInfix hopen,List.isEmpty_eq_false_iff.mpr hne]
  rfl

theorem blank_emit {before items : List ReplyItem} (hf : Follow before items)
    (hb : names before = []) (hc : calls items = []) : Blank (emit items) := by
  induction items generalizing before with
  | nil => exact nofun
  | cons item items ih =>
    cases item with
    | call body => cases hc
    | response name summary =>
      have hmem := hf.1.1
      rw [hb] at hmem
      cases hmem
    | gap w =>
      have hnames : names (before ++ [.gap w]) = [] := by
        rw [names,calls_append,List.map_append]
        exact (List.append_nil _).trans hb
      intro c hmem
      rw [emit,List.flatMap_cons] at hmem
      exact (List.mem_append.mp hmem).elim (hf.1 c) (ih hf.2 hnames hc c)

theorem resolve_range (cs : List ToolCall) :
    ((List.range cs.length).map Segment.call).filterMap (Segment.resolve cs) = cs.map .call := by
  rw [List.filterMap_map]
  refine Eq.trans ?_ (congrArg (List.map Segment.call) (filterMap_range cs))
  rw [List.map_filterMap]
  rfl

section Delivery

variable {lower : Units → Units} {items : List ReplyItem}

theorem Reply.delivered (h : Reply lower items) (hclean : ∀ item ∈ items, item.Clean) :
    Delivered lower items := by
  have hm := Matched.of_follow h.follow
  by_cases hc : calls items = []
  · have ha : answers items = [] := by
      rw [List.eq_nil_iff_forall_not_mem]
      intro r hr
      obtain ⟨c,hmem,-⟩ := hm.mem r hr
      rw [hc] at hmem
      cases hmem
    have hblank := blank_emit h.follow rfl hc
    have hnot : ∀ m, lt ∈ m → includes m (emit items) = false := by
      intro m hmem
      rw [includes,cut_eq_none.mpr (fun hin => not_mem_of_blank hblank (hin.subset hmem))]
      rfl
    have hplain : plain (emit items) = true := by
      rw [plain,hnot _ (by decide),hnot _ (by decide),Bool.or_eq_true]
      exact .inr rfl
    have hparse : parseToolCalls lower (emit items) = ⟨[],emit items,false,[]⟩ := by
      rw [parseToolCalls,if_pos hplain,if_pos (trim_of_blank hblank)]
    refine ⟨?_,?_,?_,?_⟩
    · rw [hparse,hc]
      rfl
    · rw [hparse,hc]
      rfl
    · rw [hparse]
      exact trim_of_blank hblank
    · rw [hparse]
  · obtain ⟨hcleaned,hresults⟩ := clean_emit h.follow hclean h.quiet
    obtain ⟨hbare,hcalls⟩ := read_bare h.follow
    have hnodup : ((calls items).map (fun c : ToolCall => lower c.name)).Nodup := by
      have := h.nodup
      rwa [names,List.map_map] at this
    have hattach : attachAll lower (calls items) (answers items) =
        (calls items).map (answered (answers items)) := by
      have hall : ∀ r ∈ answers items,
          ∃ c ∈ calls items, r.name = some c.name ∧ c.name ≠ [] ∧ c.result = none := by
        intro r hr
        obtain ⟨c,hmem,hname,hne⟩ := hm.mem r hr
        exact ⟨c,hmem,hname,hne,calls_result hmem⟩
      have hfold := foldl_attach hnodup hm.nodup hall [] 0
      rw [List.append_nil,List.append_nil] at hfold
      rw [attachAll,hfold]
    rw [List.append_nil] at hcleaned hresults
    have hparse : parseToolCalls lower (emit items) =
        ⟨(calls items).map (answered (answers items)),trim (read (said items)).prose,false,
          ((calls items).map (answered (answers items))).map .call⟩ := by
      have hclean' : cleaned (emit items) = said items := hcleaned.trans (List.append_nil _)
      have hresults' : results (emit items) = answers items := hresults.trans (List.append_nil _)
      rw [parseToolCalls,if_neg (by rw [plain_emit hc]; exact Bool.false_ne_true),hclean',hresults']
      simp only [hcalls,hattach,hbare.pending,hbare.segments]
      rw [← List.length_map (answered (answers items)),resolve_range]
    refine ⟨?_,?_,?_,?_⟩
    · rw [hparse]
    · rw [hparse]
    · rw [hparse,trim_of_blank hbare.prose]
      rfl
    · rw [hparse]

theorem exists_first_dirty (h : ¬ ∀ item ∈ items, item.Clean) :
    ∃ pre item post, items = pre ++ item :: post ∧ (∀ i ∈ pre, ReplyItem.Clean i) ∧
      ¬ item.Clean := by
  induction items with
  | nil => exact absurd (List.forall_mem_nil _) h
  | cons item items ih =>
    by_cases hitem : item.Clean
    · have hrest : ¬ ∀ i ∈ items, ReplyItem.Clean i :=
        fun hall => h (List.forall_mem_cons.mpr ⟨hitem,hall⟩)
      obtain ⟨pre,d,post,rfl,hpre,hd⟩ := ih hrest
      exact ⟨item :: pre,d,post,rfl,List.forall_mem_cons.mpr ⟨hitem,hpre⟩,hd⟩
    · exact ⟨[],item,items,rfl,List.forall_mem_nil _,hitem⟩

theorem Reply.nodup_left {pre post : List ReplyItem} (h : Reply lower (pre ++ post)) :
    ((calls pre).map (fun c : ToolCall => lower c.name)).Nodup := by
  have hn := h.nodup
  rw [names,calls_append,List.map_append,List.map_append] at hn
  have hpre := (List.nodup_append.mp hn).1
  rwa [List.map_map] at hpre

/-- The call of the first result with a closer in it gets only what stands before that closer. -/
theorem Reply.cutShort {pre post : List ReplyItem} {name summary t q : Units}
    (h : Reply lower (pre ++ .response name summary :: post))
    (hpre : ∀ i ∈ pre, ReplyItem.Clean i) (hcut : cut toolResponseClose summary = some (t,q)) :
    ∃ (i : ℕ) (c : ToolCall), (calls pre)[i]? = some c ∧ c.name = name ∧
      (parseToolCalls lower (emit (pre ++ .response name summary :: post))).calls[i]? =
        some { c with result := some (trim t) } := by
  obtain ⟨hfpre,hfpost⟩ := follow_append h.follow
  rw [List.nil_append] at hfpost
  obtain ⟨hmem,hnot,hne,hquote⟩ := hfpost.1
  obtain ⟨hcleaned,hresults⟩ := clean_emit hfpre hpre (quiet_append h.quiet)
  obtain ⟨c,hc,rfl⟩ := List.mem_map.mp hmem
  obtain ⟨i,hi⟩ := List.getElem?_of_mem hc
  have hm := Matched.of_follow hfpre
  -- the block is read up to the closer in its summary
  have hsummary : summary ++ (toolResponseClose ++ (emit post ++ [])) =
      t ++ (toolResponseClose ++ (q ++ (toolResponseClose ++ (emit post ++ [])))) := by
    rw [eq_append_of_cut hcut]
    simp only [List.append_assoc]
  have hspan := responseSpan_block hquote _
    (not_isInfix_of_cut sharp_responseClose.ne_nil hcut) hsummary
  have hblock : emit (.response c.name summary :: post) ++ [] =
      toolResponseBlock c.name summary ++ (emit post ++ []) := List.append_assoc ..
  rw [hblock] at hcleaned hresults
  rw [results_span hspan,List.append_cons] at hresults
  -- the calls before it are read, whatever comes after them
  have hsplit := split_said (w := []) blank_nil hfpre (cleaned (toolResponseBlock c.name summary ++
    (emit post ++ [])))
  rw [List.nil_append,← hcleaned] at hsplit
  have hcalls := read_calls (cleaned (emit pre ++ (toolResponseBlock c.name summary ++
    (emit post ++ []))))
  rw [founds,hsplit,List.map_append,scanned_call] at hcalls
  -- its result is filled in and stays
  have hrs : ((answers pre ++ [(⟨some c.name,trim t⟩ : ToolResult)]).map ToolResult.name).Nodup := by
    rw [List.map_append,List.nodup_append]
    refine ⟨hm.nodup,List.nodup_singleton _,?_⟩
    rintro _ ha _ hb rfl
    rw [List.mem_singleton.mp hb] at ha
    exact hnot ha
  have hall : ∀ r ∈ answers pre ++ [⟨some c.name,trim t⟩],
      ∃ d ∈ calls pre, r.name = some d.name ∧ d.name ≠ [] ∧ d.result = none := by
    intro r hr
    rcases List.mem_append.mp hr with hr | hr
    · obtain ⟨d,hd,hname,hdne⟩ := hm.mem r hr
      exact ⟨d,hd,hname,hdne,calls_result hd⟩
    · rw [List.mem_singleton.mp hr]
      exact ⟨c,hc,rfl,hne,calls_result hc⟩
  have hfilled : answered (answers pre ++ [⟨some c.name,trim t⟩]) c =
      { c with result := some (trim t) } := by
    rw [answered_append,answered_cons_of_eq rfl]
    exact fun r hr heq => hnot (heq ▸ List.mem_map_of_mem hr)
  have hne : calls (pre ++ .response c.name summary :: post) ≠ [] := by
    rw [calls_append]
    exact List.append_ne_nil_of_left_ne_nil (List.ne_nil_of_mem hc) _
  refine ⟨i,c,hi,rfl,?_⟩
  have htext : emit (pre ++ .response c.name summary :: post) =
      emit pre ++ (toolResponseBlock c.name summary ++ (emit post ++ [])) := by
    rw [emit_append,← hblock,List.append_nil]
  rw [parseToolCalls,if_neg (by rw [plain_emit hne]; exact Bool.false_ne_true),htext,hresults]
  simp only [hcalls]
  rw [attachAll,List.foldl_append,foldl_attach h.nodup_left hrs hall]
  refine foldl_attach_keeps ?_ rfl _
  rw [List.getElem?_append_left,List.getElem?_map,hi,Option.map_some,hfilled]
  rw [List.length_map]
  exact (List.getElem?_eq_some_iff.mp hi).1

theorem Reply.not_delivered (h : Reply lower items) (hd : ¬ ∀ item ∈ items, item.Clean) :
    ¬ Delivered lower items := by
  obtain ⟨pre,item,post,rfl,hpre,hitem⟩ := exists_first_dirty hd
  cases item with
  | call body => exact absurd trivial hitem
  | gap w => exact absurd trivial hitem
  | response name summary =>
    have hin : toolResponseClose <:+: summary := not_not.mp hitem
    obtain ⟨p,hcut⟩ : ∃ p, cut toolResponseClose summary = some p := by
      rw [← Option.ne_none_iff_exists',Ne,cut_eq_none]
      exact not_not.mpr hin
    obtain ⟨i,c,hi,rfl,hparsed⟩ := h.cutShort hpre hcut
    intro hdel
    have hnot := (follow_append h.follow).2.1.2.1
    have hlt := (List.getElem?_eq_some_iff.mp hi).1
    have hall : (calls (pre ++ .response c.name summary :: post))[i]? = some c := by
      rw [calls_append,List.getElem?_append_left hlt,hi]
    have hown : answered (answers (pre ++ .response c.name summary :: post)) c =
        { c with result := some (trim summary) } := by
      have hpost : answers (.response c.name summary :: post) =
          ⟨some c.name,trim summary⟩ :: answers post := rfl
      rw [answers_append,hpost,answered_append,answered_cons_of_eq rfl]
      exact fun r hr heq => hnot (heq ▸ List.mem_map_of_mem hr)
    rw [hdel.calls,List.getElem?_map,hall,Option.map_some,hown,Option.some.injEq] at hparsed
    have htrim : trim summary = trim p.1 := by
      simpa using congrArg ToolCall.result hparsed
    -- the closer is still in the trimmed summary, but not in what the parser has taken of it
    have hkept := isInfix_trim (c := lt) (d := unit '>') rfl (by decide) (by decide) (by decide) hin
    rw [htrim] at hkept
    exact not_isInfix_of_cut sharp_responseClose.ne_nil hcut (hkept.trans (trim_isInfix p.1))

/-- A reply is delivered exactly if no result has the closing tag in it. -/
theorem delivered_iff (h : Reply lower items) :
    Delivered lower items ↔ ∀ item ∈ items, item.Clean :=
  ⟨fun hd => by_contra (fun hn => h.not_delivered hn hd),h.delivered⟩

end Delivery

/-- Two calls, answered the other way round. -/
def swapped (summary : Units) : List ReplyItem :=
  [.call (units "get_news()"),.call (units "calculate(1)"),.gap (units "\n"),
    .response (units "calculate") summary,.gap (units "\n"),.response (units "get_news") (units "none")]

theorem swapped_delivered : Delivered id (swapped (units " 1 ")) :=
  (delivered_iff ⟨by decide +kernel,by decide +kernel,by decide +kernel⟩).mpr (by decide +kernel)

/-- A summary that quotes the closing tag: its second half is shown as prose. -/
theorem quotedTag_not_delivered :
    Reply id (swapped (units "use </tool_response> here")) ∧
      ¬ Delivered id (swapped (units "use </tool_response> here")) := by
  refine ⟨⟨by decide +kernel,by decide +kernel,by decide +kernel⟩,fun h => ?_⟩
  have hprose := h.prose
  have : trim (parseToolCalls id (emit (swapped (units "use </tool_response> here")))).prose =
      units "here</tool_response>" := by decide +kernel
  rw [this] at hprose
  exact absurd hprose (by decide)

end Rullama.ToolCalls
