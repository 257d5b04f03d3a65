import Rullama.ToolCalls.Parse

/-! # What the parser reads

The loops of the parser all shorten their text. The calls that are read are those that are found,
the call segments hold them in order, and attaching results changes nothing else of a call.
-/
namespace Rullama.ToolCalls
open Text

variable {s rest : Units}

/-! ## The loops shorten their text -/

theorem length_skipBracket (s : Units) : (skipBracket s).length ≤ s.length := by
  unfold skipBracket
  split
  · exact Nat.le_refl _
  · split <;> simp

theorem balanced_eq {depth : ℤ} {inStr esc : Bool} {t : Units}
    (h : balanced depth inStr esc s = some (t,rest)) : s = t ++ rest := by
  induction s generalizing depth inStr esc t with
  | nil => cases h
  | cons c cs ih =>
    have hstep : ∀ {d : ℤ} {b e : Bool},
        (balanced d b e cs).map (fun p => (c :: p.1,p.2)) = some (t,rest) → c :: cs = t ++ rest := by
      intro d b e hmap
      obtain ⟨p,hp,heq⟩ := Option.map_eq_some_iff.mp hmap
      cases heq
      rw [List.cons_append,← ih hp]
    rw [balanced] at h
    split at h
    · exact hstep h
    · split at h
      · exact hstep h
      · split at h
        · exact hstep h
        · split at h
          · split at h
            · cases h
              rfl
            · exact hstep h
          · exact hstep h

theorem matchJsonEnd_eq {t : Units} (h : matchJsonEnd s = some (t,rest)) : s = t ++ rest := by
  simp only [matchJsonEnd] at h
  split at h
  · obtain ⟨p,hp,heq⟩ := Option.map_eq_some_iff.mp h
    cases heq
    rw [List.append_assoc,← balanced_eq hp,List.takeWhile_append_dropWhile]
  · cases h

theorem nextCall_shortens : Shortens nextCall := by
  intro s f rest h
  rw [nextCall] at h
  split at h
  · cases h
  · rename_i before after hopen
    have hs := congrArg List.length (eq_append_of_cut hopen)
    have hpos : toolCallOpenPrefix.length = 10 := by decide
    have hbody := length_skipBracket after
    simp only [List.length_append,hpos] at hs
    simp only at h
    split at h
    · rename_i inner rest hclose
      cases h
      have hb := congrArg List.length (eq_append_of_cut hclose)
      simp only [List.length_append] at hb
      omega
    · split at h
      · rename_i inner rest hobj
        cases h
        have hb := congrArg List.length (matchJsonEnd_eq hobj)
        have hle : (swallow rest).length ≤ rest.length := List.length_dropWhile_le ..
        simp only [List.length_append] at hb
        omega
      · cases h
        simp only [List.length_nil]
        omega

theorem nextThought_shortens : Shortens nextThought := by
  intro s f rest h
  rw [nextThought] at h
  split at h
  · cases h
  · rename_i before after hopen
    have hs := congrArg List.length (eq_append_of_cut hopen)
    have hpos : channelOpen.length = 17 := by decide
    simp only [List.length_append,hpos] at hs
    split at h
    · rename_i thought rest hclose
      cases h
      have hb := congrArg List.length (eq_append_of_cut hclose)
      simp only [List.length_append] at hb
      omega
    · cases h
      simp only [List.length_nil]
      omega

/-- The texts of an opening tag, with the name that each of them carries. -/
inductive ResponseTag : Option Units → Units → Prop
  | bare : ResponseTag none (responseTag ++ [unit '>'])
  | named {w v : Units} : w ≠ [] → Blank w → unit '"' ∉ v →
      ResponseTag (some v)
        (responseTag ++ (w ++ (units "for=\"" ++ (v ++ ([unit '"'] ++ [unit '>'])))))

theorem dropWhile_blank {w : Units} (hw : Blank w) {c : UInt16} (hc : isSpace c = false)
    (s : Units) : (w ++ c :: s).dropWhile isSpace = c :: s := by
  have h := trimStart_append hw (c :: s)
  rw [trimStart,trimStart] at h
  rw [h,List.dropWhile_cons_of_neg (by simp [hc])]

theorem sharp_quote : Sharp (unit '"') [unit '"'] := ⟨rfl,List.not_mem_nil⟩

theorem responseOpen_of_tag {name : Option Units} {tag : Units} (h : ResponseTag name tag)
    (rest : Units) : responseOpen (tag ++ rest) = some (name,rest) := by
  cases h with
  | bare =>
    rw [responseOpen,List.append_assoc,past_eq_some.mpr rfl]
    simp only [past_eq_some.mpr rfl]
  | @named w v hne hw hv =>
    obtain ⟨c,w,rfl⟩ := List.exists_cons_of_ne_nil hne
    have hc : isSpace c = true := hw c List.mem_cons_self
    have hfor : units "for=\"" = unit 'f' :: units "or=\"" := by decide
    have hbracket (t : Units) : past [unit '>'] (c :: w ++ t) = none := by
      rw [past_eq_none]
      intro hpre
      obtain rfl : unit '>' = c := (List.cons_prefix_cons.mp hpre).1
      exact absurd hc (by decide)
    have hhead (t : Units) : (c :: w ++ t).head?.any isSpace = true := hc
    have hdrop (t : Units) :
        (c :: w ++ (units "for=\"" ++ t)).dropWhile isSpace = units "for=\"" ++ t := by
      rw [hfor]
      exact dropWhile_blank hw (by decide) _
    have hquote : ¬ [unit '"'] <:+: v := by
      rwa [List.singleton_infix_iff]
    simp only [List.append_assoc]
    rw [responseOpen,past_eq_some.mpr rfl]
    simp only [hbracket,hhead,hdrop,if_true]
    rw [past_eq_some.mpr rfl]
    simp only [sharp_quote.cut_marker hquote]
    rw [past_eq_some.mpr rfl]
    rfl

theorem tag_of_responseOpen {name : Option Units} (h : responseOpen s = some (name,rest)) :
    ∃ tag, ResponseTag name tag ∧ s = tag ++ rest := by
  rw [responseOpen] at h
  split at h
  · cases h
  · rename_i t htag
    rw [past_eq_some] at htag
    split at h
    · rename_i r hbracket
      cases h
      rw [past_eq_some] at hbracket
      refine ⟨_,.bare,?_⟩
      rw [htag,hbracket,List.append_assoc]
    · split at h
      · rename_i hspace
        split at h
        · cases h
        · rename_i r hfor
          rw [past_eq_some] at hfor
          split at h
          · cases h
          · rename_i v q hquote
            obtain ⟨u,hu,heq⟩ := Option.map_eq_some_iff.mp h
            cases heq
            rw [past_eq_some] at hu
            have hr := eq_append_of_cut hquote
            have hv : unit '"' ∉ v := by
              rw [← List.singleton_infix_iff]
              exact not_isInfix_of_cut (List.cons_ne_nil _ _) hquote
            have ht := List.takeWhile_append_dropWhile (p := isSpace) (l := t)
            rw [hfor,hr,hu] at ht
            refine ⟨_,.named (w := t.takeWhile isSpace) ?_ (fun _ => List.mem_takeWhile_imp) hv,?_⟩
            · cases t with
              | nil => cases hspace
              | cons c t =>
                rw [List.takeWhile_cons_of_pos (by simpa using hspace)]
                exact List.cons_ne_nil _ _
            · simp only [htag,List.append_assoc]
              exact congrArg (responseTag ++ ·) ht.symm
      · cases h

theorem length_responseOpen {name : Option Units} (h : responseOpen s = some (name,rest)) :
    rest.length < s.length := by
  obtain ⟨tag,htag,rfl⟩ := tag_of_responseOpen h
  have hpos : responseTag.length = 14 := by decide
  cases htag <;> simp only [List.length_append,hpos] <;> omega

theorem responseOpen_append {name : Option Units} (h : responseOpen s = some (name,rest))
    (t : Units) : responseOpen (s ++ t) = some (name,rest ++ t) := by
  obtain ⟨tag,htag,rfl⟩ := tag_of_responseOpen h
  rw [List.append_assoc]
  exact responseOpen_of_tag htag (rest ++ t)

theorem nextPlace_shortens : Shortens nextPlace := by
  intro s f rest h
  unfold nextPlace at h
  split at h
  · rename_i res rest hspan
    cases h
    rw [responseSpan] at hspan
    split at hspan
    · cases hspan
    · rename_i name t hopen
      obtain ⟨p,hp,heq⟩ := Option.map_eq_some_iff.mp hspan
      cases heq
      have ht := congrArg List.length (eq_append_of_cut hp)
      have hlt := length_responseOpen hopen
      simp only [List.length_append] at ht
      omega
  · split at h
    · cases h
    · cases h
      exact Nat.lt_succ_self _

/-! ## The cleaned reply -/

theorem nextPlace_span {res : ToolResult} (h : responseSpan s = some (res,rest)) :
    nextPlace s = some (.inl res,rest) := by
  unfold nextPlace
  rw [h]

theorem nextPlace_cons {c : UInt16} (h : responseSpan (c :: s) = none) :
    nextPlace (c :: s) = some (.inr c,s) := by
  unfold nextPlace
  rw [h]

/-- Induction along the replacement: nothing left, a span, a unit that is copied. -/
theorem place_induction {P : Units → Prop} (hnil : P [])
    (hspan : ∀ s res rest, responseSpan s = some (res,rest) → P rest → P s)
    (hcons : ∀ c s, responseSpan (c :: s) = none → P s → P (c :: s)) (s : Units) : P s := by
  induction s using nextPlace_shortens.induction with
  | hnone s h =>
    unfold nextPlace at h
    split at h
    · cases h
    · cases s with
      | nil => exact hnil
      | cons c s => cases h
  | hsome s b rest h ih =>
    unfold nextPlace at h
    split at h
    · rename_i res rest hres
      cases h
      exact hspan s res _ hres ih
    · rename_i hres
      cases s with
      | nil => cases h
      | cons c s =>
        cases h
        exact hcons c _ hres ih

theorem cleaned_span {res : ToolResult} (h : responseSpan s = some (res,rest)) :
    cleaned s = cleaned rest := by
  rw [cleaned,split_of_some nextPlace_shortens (nextPlace_span h)]
  rfl

theorem results_span {res : ToolResult} (h : responseSpan s = some (res,rest)) :
    results s = res :: results rest := by
  rw [results,split_of_some nextPlace_shortens (nextPlace_span h)]
  rfl

theorem cleaned_cons {c : UInt16} (h : responseSpan (c :: s) = none) :
    cleaned (c :: s) = c :: cleaned s := by
  rw [cleaned,split_of_some nextPlace_shortens (nextPlace_cons h)]
  rfl

theorem results_cons {c : UInt16} (h : responseSpan (c :: s) = none) :
    results (c :: s) = results s := by
  rw [results,split_of_some nextPlace_shortens (nextPlace_cons h)]
  rfl

abbrev lt : UInt16 := unit '<'

/-- The replacement leaves the first text as it is when the second one comes after it. -/
structure Copied (t s : Units) : Prop where
  cleaned : cleaned (t ++ s) = t ++ cleaned s
  results : results (t ++ s) = results s

theorem Copied.append {t u s : Units} (ht : Copied t (u ++ s)) (hu : Copied u s) :
    Copied (t ++ u) s := by
  refine ⟨?_,?_⟩
  · rw [List.append_assoc,ht.cleaned,hu.cleaned,List.append_assoc]
  · rw [List.append_assoc,ht.results,hu.results]

theorem Copied.cons {c : UInt16} {t s : Units} (hc : responseSpan (c :: (t ++ s)) = none)
    (ht : Copied t s) : Copied (c :: t) s := by
  refine ⟨?_,?_⟩
  · rw [List.cons_append,cleaned_cons hc,ht.cleaned,List.cons_append]
  · rw [List.cons_append,results_cons hc,ht.results]

theorem copied_of_spans {t s : Units} (h : ∀ y ∈ t.tails, responseSpan (y ++ s) = none) :
    Copied t s := by
  induction t with
  | nil => exact ⟨rfl,rfl⟩
  | cons c t ih =>
    rw [List.tails_cons,List.forall_mem_cons] at h
    exact .cons h.1 (ih h.2)

theorem responseSpan_of_not_isPrefix (h : ¬ responseTag <+: s) : responseSpan s = none := by
  rw [responseSpan,responseOpen,past_eq_none.mpr h]

/-- Text without an angle bracket is copied, whatever comes after it. -/
theorem copied_of_not_mem {t : Units} (ht : lt ∉ t) (s : Units) : Copied t s := by
  induction t with
  | nil => exact ⟨rfl,rfl⟩
  | cons c t ih =>
    rw [List.mem_cons,not_or] at ht
    refine .cons (responseSpan_of_not_isPrefix ?_) (ih ht.2)
    have htag : responseTag = lt :: units "tool_response" := by decide
    rw [htag]
    exact fun hpre => ht.1 (List.cons_prefix_cons.mp hpre).1

/-- So is a marker that is not the beginning of a result. -/
theorem copied_marker {m : Units} (hm : lt ∉ m) (k : ℕ) (hk : k ≤ responseTag.length)
    (hk' : k ≤ m.length + 1) (h : responseTag.take k ≠ (lt :: m).take k) (s : Units) :
    Copied (lt :: m) s :=
  .cons (responseSpan_of_not_isPrefix (not_isPrefix_append (u := lt :: m) k hk hk' h s))
    (copied_of_not_mem hm s)

/-! ## The calls that are read -/

theorem sharp_open : Sharp lt toolCallOpenPrefix := ⟨by decide,by decide⟩

theorem sharp_close : Sharp lt toolCallClose := ⟨by decide,by decide⟩

/-- A call up to the first closer behind its opening tag. -/
theorem nextCall_closed {w t body : Units} (hw : ¬ toolCallOpenPrefix <:+: w)
    (ht : skipBracket t = body ++ (toolCallClose ++ rest)) (hbody : ¬ toolCallClose <:+: body) :
    nextCall (w ++ (toolCallOpenPrefix ++ t)) = some (⟨w,body,.closed⟩,rest) := by
  rw [nextCall,sharp_open.cut_marker hw]
  simp only [ht,sharp_close.cut_marker hbody]

def founds (text : Units) : List Found := (split nextCall text).1

theorem addProse_calls (st : Reading) (text : Units) : (addProse st text).calls = st.calls := by
  rw [addProse,addText]
  induction (split nextThought text).1 generalizing st with
  | nil => rfl
  | cons t ts ih => exact ih (addThought st t)

theorem foldl_addFound_calls (st : Reading) (fs : List Found) :
    (fs.foldl addFound st).calls = st.calls ++ fs.map Found.call := by
  induction fs generalizing st with
  | nil => exact (List.append_nil _).symm
  | cons f fs ih =>
    have hf : (addFound st f).calls = st.calls ++ [f.call] := by
      rw [addFound,addCall,addProse_calls]
    rw [List.foldl_cons,ih,hf,List.append_assoc]
    rfl

theorem read_calls (text : Units) : (read text).calls = (founds text).map Found.call := by
  rw [read,addProse_calls,foldl_addFound_calls]
  rfl

/-! ## The call segments -/

def Segment.call? {κ : Type} : Segment κ → Option κ
  | .call c => some c
  | _ => none

/-- The call segments are the places of the calls, in order. -/
def Reading.Listed (st : Reading) : Prop :=
  st.segments.filterMap Segment.call? = List.range st.calls.length

theorem addText_listed {st : Reading} (h : st.Listed) (text : Units) : (addText st text).Listed := by
  rw [Reading.Listed,addText]
  split
  · exact h
  · rw [List.filterMap_append]
    exact (List.append_nil _).trans h

theorem addThought_listed {st : Reading} (h : st.Listed) (t : Units × Units × Bool) :
    (addThought st t).Listed := by
  rw [Reading.Listed,addThought,List.filterMap_append]
  exact (List.append_nil _).trans (addText_listed h t.1)

theorem addProse_listed {st : Reading} (h : st.Listed) (text : Units) :
    (addProse st text).Listed := by
  rw [addProse]
  refine addText_listed ?_ _
  induction (split nextThought text).1 generalizing st with
  | nil => exact h
  | cons t ts ih => exact ih (addThought_listed h t)

theorem addFound_listed {st : Reading} (h : st.Listed) (f : Found) : (addFound st f).Listed := by
  have hp := addProse_listed h f.before
  rw [Reading.Listed] at hp
  rw [Reading.Listed,addFound,addCall,List.filterMap_append,hp,List.length_append,
    List.length_singleton,List.range_succ]
  rfl

theorem read_listed (text : Units) : (read text).Listed := by
  rw [read]
  refine addProse_listed ?_ _
  have hall : ∀ (fs : List Found) (st : Reading), st.Listed → (fs.foldl addFound st).Listed := by
    intro fs
    induction fs with
    | nil => exact fun _ h => h
    | cons f fs ih => exact fun st h => ih _ (addFound_listed h f)
  exact hall _ {} rfl

theorem filterMap_range (calls : List ToolCall) :
    (List.range calls.length).filterMap (calls[·]?) = calls := by
  induction calls with
  | nil => rfl
  | cons c calls ih =>
    have hzero : (c :: calls)[0]? = some c := rfl
    rw [List.length_cons,List.range_succ_eq_map,List.filterMap_cons_some hzero,
      List.filterMap_map]
    exact congrArg (c :: ·) ih

/-- Resolving the call segments in order gives the calls. -/
theorem resolve_calls (calls : List ToolCall) (segs : List (Segment ℕ)) :
    (segs.filterMap (Segment.resolve calls)).filterMap Segment.call? =
      (segs.filterMap Segment.call?).filterMap (calls[·]?) := by
  rw [List.filterMap_filterMap,List.filterMap_filterMap]
  refine List.filterMap_congr (fun seg _ => ?_)
  cases seg with
  | thinking text isThinking isComplete => rfl
  | prose text => rfl
  | call i => cases h : calls[i]? <;> simp [Segment.resolve,Segment.call?,h]

/-! ## Attaching -/

/-- A call without its result. -/
def ToolCall.bare (c : ToolCall) : ToolCall := { c with result := none }

theorem map_modify_bare (calls : List ToolCall) (i : ℕ) (text : Units) :
    (calls.modify i (fun c => { c with result := some text })).map ToolCall.bare =
      calls.map ToolCall.bare := by
  refine List.ext_getElem? (fun j => ?_)
  rw [List.getElem?_map,List.getElem?_map,List.getElem?_modify]
  cases calls[j]? with
  | none => rfl
  | some c =>
    by_cases hij : i = j
    · simp [hij,ToolCall.bare]
    · simp [hij]

theorem attach_bare (lower : Units → Units) (st : List ToolCall × ℕ) (res : ToolResult) :
    (attach lower st res).1.map ToolCall.bare = st.1.map ToolCall.bare := by
  rw [attach]
  split <;> exact map_modify_bare ..

theorem attachAll_bare (lower : Units → Units) (calls : List ToolCall)
    (results : List ToolResult) :
    (attachAll lower calls results).map ToolCall.bare = calls.map ToolCall.bare := by
  rw [attachAll]
  generalize 0 = n
  induction results generalizing calls n with
  | nil => rfl
  | cons res results ih =>
    rw [List.foldl_cons,← attach_bare lower (calls,n) res]
    exact ih _ _

theorem attachAll_length (lower : Units → Units) (calls : List ToolCall)
    (results : List ToolResult) : (attachAll lower calls results).length = calls.length := by
  have h := congrArg List.length (attachAll_bare lower calls results)
  rwa [List.length_map,List.length_map] at h

end Rullama.ToolCalls
