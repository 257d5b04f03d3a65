import Rullama.ToolCalls.Scan

/-! # Streaming

A reply is parsed again with every piece that arrives. What the parser has read up to the closer
of a call is not changed by what comes later.
-/
namespace Rullama.ToolCalls
open Text

/-- A text that can be the beginning of a `<tool_response>` and nothing else. -/
structure Stub (u : Units) : Prop where
  startsAt : StartsAt lt u
  tail : lt ∉ u.tail
  not_isInfix : ¬ toolCallClose <:+: u

theorem stub_nil : Stub [] := ⟨.inl rfl,List.not_mem_nil,by decide⟩

theorem stub_cons {u : Units} (hu : lt ∉ u) (hslash : u.head? ≠ some (unit '/')) :
    Stub (lt :: u) := by
  refine ⟨.inr rfl,hu,fun hin => ?_⟩
  have hclose : toolCallClose = lt :: unit '/' :: units "tool_call>" := by decide
  rw [List.infix_cons_iff,hclose] at hin
  rcases hin with hpre | hin
  · obtain ⟨t,ht⟩ := (List.cons_prefix_cons.mp hpre).2
    exact hslash (by rw [← ht]; rfl)
  · exact hu (hin.subset List.mem_cons_self)

/-- A piece of a stub at its front is one. -/
theorem Stub.of_append {u v : Units} (h : Stub (u ++ v)) : Stub u := by
  cases u with
  | nil => exact stub_nil
  | cons c u =>
    refine ⟨.inr ?_,fun hmem => h.tail (List.mem_append_left v hmem),
      fun hin => h.not_isInfix (hin.trans (List.prefix_append _ v).isInfix)⟩
    rcases h.startsAt with hnil | hhead
    · cases hnil
    · exact hhead

/-! ## Results that are closed -/

/-- `<tool_response>`, or `<tool_response for="` and whatever comes after it. -/
def opensResponse (s : Units) : Bool :=
  match past responseTag s with
  | none => false
  | some s =>
    s.head? = some (unit '>') ||
      (s.head?.any isSpace && (units "for=\"").isPrefixOf (s.dropWhile isSpace))

/-- Wherever the replacement meets an opened `<tool_response>`, it is closed. -/
def ResponsesClosed (raw : Units) : Prop :=
  ∀ s ∈ stops nextPlace raw, opensResponse s = true → (responseSpan s).isSome

instance (raw : Units) : Decidable (ResponsesClosed raw) :=
  inferInstanceAs (Decidable (∀ _ ∈ _, _))

theorem tag_opens {name : Option Units} {tag : Units} (h : ResponseTag name tag) :
    ∃ front back, tag = front ++ back ∧ Stub front ∧ ∀ t, opensResponse (front ++ t) = true := by
  cases h with
  | bare =>
    refine ⟨_,[],(List.append_nil _).symm,stub_cons (by decide) (by decide),fun t => ?_⟩
    rw [opensResponse,List.append_assoc,past_eq_some.mpr rfl]
    rfl
  | @named w v hne hw hv =>
    have htag : responseTag = lt :: units "tool_response" := by decide
    have hfor : units "for=\"" = unit 'f' :: units "or=\"" := by decide
    refine ⟨responseTag ++ (w ++ units "for=\""),v ++ ([unit '"'] ++ [unit '>']),?_,
      ?_,fun t => ?_⟩
    · simp only [List.append_assoc]
    · have hhead : (units "tool_response").head? = some (unit 't') := by decide
      rw [htag,List.cons_append]
      refine stub_cons ?_ (by rw [List.head?_append,hhead,Option.some_or]; decide)
      rw [List.mem_append,List.mem_append]
      rintro (hmem | hmem | hmem)
      · exact absurd hmem (by decide)
      · exact absurd (hw lt hmem) (by decide)
      · exact absurd hmem (by decide)
    · obtain ⟨c,w,rfl⟩ := List.exists_cons_of_ne_nil hne
      have hc : isSpace c = true := hw c List.mem_cons_self
      have hhead (t : Units) : (c :: w ++ t).head?.any isSpace = true := hc
      have hdrop (t : Units) :
          (c :: w ++ (units "for=\"" ++ t)).dropWhile isSpace = units "for=\"" ++ t := by
        rw [hfor]
        exact dropWhile_blank hw (by decide) _
      simp only [List.append_assoc]
      rw [opensResponse,past_eq_some.mpr rfl]
      simp only [hhead,hdrop,Bool.true_and]
      rw [List.isPrefixOf_iff_prefix.mpr (List.prefix_append _ _),Bool.or_true]

/-- Where no result is opened, only a stub can still become a tag. -/
theorem stub_of_responseOpen {r t rest : Units} {name : Option Units}
    (h : responseOpen (r ++ t) = some (name,rest)) (hr : opensResponse r = false) : Stub r := by
  obtain ⟨tag,htag,heq⟩ := tag_of_responseOpen h
  obtain ⟨front,back,rfl,hstub,hopens⟩ := tag_opens htag
  rw [List.append_assoc] at heq
  rcases List.append_eq_append_iff.mp heq with ⟨e,rfl,-⟩ | ⟨e,rfl,-⟩
  · exact hstub.of_append
  · rw [hopens e] at hr
    cases hr

/-! ## The cleaned reply -/

theorem responseSpan_append {s rest : Units} {res : ToolResult}
    (h : responseSpan s = some (res,rest)) (t : Units) :
    responseSpan (s ++ t) = some (res,rest ++ t) := by
  rw [responseSpan] at h
  split at h
  · cases h
  · rename_i name u hopen
    obtain ⟨p,hp,heq⟩ := Option.map_eq_some_iff.mp h
    cases heq
    rw [responseSpan,responseOpen_append hopen t]
    simp only [cut_append hp t,Option.map_some]

theorem responseOpen_of_span {s : Units} (h : (responseSpan s).isSome) :
    ∃ name rest, responseOpen s = some (name,rest) := by
  rw [responseSpan] at h
  split at h
  · cases h
  · exact ⟨_,_,by assumption⟩

theorem Stub.cleaned {u : Units} (h : Stub u) (hu : responseSpan u = none) : cleaned u = u := by
  cases u with
  | nil => rfl
  | cons c u =>
    have hc := (copied_of_not_mem h.tail []).cleaned
    rw [List.tail_cons,List.append_nil] at hc
    rw [cleaned_cons hu,hc]
    exact congrArg (c :: ·) (List.append_nil u)

/-- Cleaning a longer reply changes at most a stub at the end of what was there. -/
theorem cleaned_append (r : Units) (h : ResponsesClosed r) :
    ∃ p u, cleaned r = p ++ u ∧ Stub u ∧ ∀ t, ∃ w, cleaned (r ++ t) = p ++ w := by
  induction r using place_induction with
  | hnil => exact ⟨[],[],rfl,stub_nil,fun t => ⟨_,rfl⟩⟩
  | hspan r res rest hres ih =>
    have hstops := stops_of_some nextPlace_shortens (nextPlace_span hres)
    obtain ⟨p,u,hp,hu,happ⟩ := ih (fun s hs => h s (hstops ▸ List.mem_cons_of_mem r hs))
    refine ⟨p,u,(cleaned_span hres).trans hp,hu,fun t => ?_⟩
    rw [cleaned_span (responseSpan_append hres t)]
    exact happ t
  | hcons c r hres ih =>
    have hstops := stops_of_some nextPlace_shortens (nextPlace_cons hres)
    have hopens : opensResponse (c :: r) = false := by
      have hmem : c :: r ∈ stops nextPlace (c :: r) := hstops ▸ List.mem_cons_self
      rw [Bool.eq_false_iff]
      intro hopen
      have := h _ hmem hopen
      rw [hres] at this
      cases this
    by_cases hstub : Stub (c :: r)
    · exact ⟨[],c :: r,hstub.cleaned hres,hstub,fun t => ⟨_,rfl⟩⟩
    · obtain ⟨p,u,hp,hu,happ⟩ := ih (fun s hs => h s (hstops ▸ List.mem_cons_of_mem (c :: r) hs))
      refine ⟨c :: p,u,?_,hu,fun t => ?_⟩
      · rw [cleaned_cons hres,hp]
        rfl
      · have hnone : responseSpan (c :: (r ++ t)) = none := by
          cases hspan : responseSpan (c :: (r ++ t)) with
          | none => rfl
          | some q =>
            obtain ⟨name,rest,hopen⟩ := responseOpen_of_span (Option.isSome_of_eq_some hspan)
            exact absurd (stub_of_responseOpen (r := c :: r) hopen hopens) hstub
        obtain ⟨w,hw⟩ := happ t
        refine ⟨w,?_⟩
        rw [List.cons_append,cleaned_cons hnone,hw]
        rfl

/-! ## Calls that are closed -/

theorem skipBracket_append {a : Units} (ha : a ≠ []) (w : Units) :
    skipBracket (a ++ w) = skipBracket a ++ w := by
  obtain ⟨c,a,rfl⟩ := List.exists_cons_of_ne_nil ha
  rw [List.cons_append,skipBracket,skipBracket]
  split <;> rfl

theorem skipBracket_isSuffix (s : Units) : skipBracket s <:+ s := by
  unfold skipBracket
  split
  · exact List.suffix_refl _
  · split
    · exact List.suffix_cons _ _
    · exact List.suffix_refl _

theorem nextCall_within {s rest : Units} {f : Found} (h : nextCall s = some (f,rest)) :
    rest <:+: s ∧ (f.ending = .closed → toolCallClose <:+: s) ∧
      (f.ending ≠ .closed → ¬ toolCallClose <:+: rest) := by
  rw [nextCall] at h
  split at h
  · cases h
  · rename_i before after hopen
    have hafter : after <:+ s := by
      rw [eq_append_of_cut hopen,← List.append_assoc]
      exact List.suffix_append _ _
    have hbody : skipBracket after <:+: s := ((skipBracket_isSuffix after).trans hafter).isInfix
    simp only at h
    split at h
    · rename_i inner rest hclose
      cases h
      have hrest : rest <:+ skipBracket after := by
        rw [eq_append_of_cut hclose,← List.append_assoc]
        exact List.suffix_append _ _
      exact ⟨hrest.isInfix.trans hbody,fun _ => (isInfix_of_cut hclose).trans hbody,
        fun hne => absurd rfl hne⟩
    · rename_i hclose
      rw [cut_eq_none] at hclose
      split at h
      · rename_i inner rest hobj
        cases h
        have hrest : swallow rest <:+ skipBracket after := by
          rw [matchJsonEnd_eq hobj]
          exact (List.dropWhile_suffix _).trans (List.suffix_append _ _)
        refine ⟨hrest.isInfix.trans hbody,fun hclosed => ?_,
          fun _ hin => hclose (hin.trans hrest.isInfix)⟩
        cases hclosed
      · cases h
        refine ⟨List.nil_infix,fun hclosed => ?_,fun _ hin => ?_⟩
        · cases hclosed
        exact sharp_close.ne_nil (List.infix_nil.mp hin)

theorem nextCall_streaming {s rest : Units} {f : Found} (h : nextCall s = some (f,rest))
    (hf : f.ending = .streaming) : rest = [] := by
  rw [nextCall] at h
  split at h
  · cases h
  · simp only at h
    split at h
    · cases h
      cases hf
    · split at h
      · cases h
        cases hf
      · cases h
        rfl

/-- Without a closer in the text no call in it is closed. -/
theorem not_closed_of_not_infix (s : Units) (h : ¬ toolCallClose <:+: s) :
    ∀ f ∈ founds s, f.ending ≠ .closed := by
  induction s using nextCall_shortens.induction with
  | hnone s hs =>
    rw [founds,split_of_none hs]
    exact nofun
  | hsome s f rest hs ih =>
    obtain ⟨hrest,hclosed,-⟩ := nextCall_within hs
    rw [founds,split_of_some nextCall_shortens hs,List.forall_mem_cons]
    exact ⟨fun hf => h (hclosed hf),ih (fun hin => h (hin.trans hrest))⟩

/-- A closed call does not depend on what comes after its closer. -/
theorem nextCall_append {p u rest : Units} (hu : Stub u) {f : Found}
    (h : nextCall (p ++ u) = some (f,rest)) (hf : f.ending = .closed) :
    ∃ p', rest = p' ++ u ∧ ∀ w, nextCall (p ++ w) = some (f,p' ++ w) := by
  rw [nextCall] at h
  split at h
  · cases h
  · rename_i before after hopen
    simp only at h
    split at h
    · rename_i inner rest hclose
      cases h
      rcases sharp_open.cut_append_cases hu.startsAt hopen with ⟨a,rfl,hp⟩ | ⟨b,-,hb⟩
      · have ha : a ≠ [] := by
          rintro rfl
          have hin : toolCallClose <:+: u :=
            (isInfix_of_cut hclose).trans (skipBracket_isSuffix u).isInfix
          exact hu.not_isInfix hin
        rw [skipBracket_append ha] at hclose
        rcases sharp_close.cut_append_cases hu.startsAt hclose with ⟨p',rfl,hp'⟩ | ⟨b,-,hb⟩
        · refine ⟨p',rfl,fun w => ?_⟩
          rw [nextCall,cut_append hp w]
          simp only [skipBracket_append ha,cut_append hp' w]
        · exact absurd (isInfix_of_cut hb) hu.not_isInfix
      · have hin : toolCallClose <:+: after :=
          (isInfix_of_cut hclose).trans (skipBracket_isSuffix after).isInfix
        have hafter : after <:+: u := by
          rw [eq_append_of_cut hb,← List.append_assoc]
          exact (List.suffix_append _ _).isInfix
        exact absurd (hin.trans hafter) hu.not_isInfix
    · split at h <;> (cases h; cases hf)

theorem founds_append {p u : Units} (hu : Stub u) (w : Units) :
    (founds (p ++ u)).filter (·.ending = .closed) <+: founds (p ++ w) := by
  induction hs : p ++ u using nextCall_shortens.induction generalizing p with
  | hnone s hnext =>
    rw [founds,split_of_none hnext]
    exact List.nil_prefix
  | hsome s f rest hnext ih =>
    rw [founds,split_of_some nextCall_shortens hnext]
    by_cases hf : f.ending = .closed
    · rw [← hs] at hnext
      obtain ⟨p',rfl,happ⟩ := nextCall_append hu hnext hf
      rw [List.filter_cons_of_pos (by simpa using hf),founds,
        split_of_some nextCall_shortens (happ w)]
      exact List.cons_prefix_cons.mpr ⟨rfl,ih rfl⟩
    · have hrest := not_closed_of_not_infix rest ((nextCall_within hnext).2.2 hf)
      have hnil : (founds rest).filter (·.ending = .closed) = [] := by
        rw [List.filter_eq_nil_iff]
        simpa using hrest
      rw [List.filter_cons_of_neg (by simpa using hf)]
      exact hnil ▸ List.nil_prefix

/-! ## The parsed calls -/

section Parse

variable (lower : Units → Units)

/-- How each call of the reply ends. -/
def endings (raw : Units) : List Ending :=
  if plain raw then [] else (founds (cleaned raw)).map Found.ending

/-- The calls that end with an explicit `</tool_call>`. -/
def closedCalls (raw : Units) : List ToolCall :=
  ((parseToolCalls lower raw).calls.zip (endings raw)).filterMap
    (fun p => if p.2 = .closed then some p.1 else none)

theorem toCall_bare (inner : Units) (pending : Bool) :
    (toCall inner pending).bare = toCall inner pending := by
  rw [toCall]
  split
  · rw [notJson]
    split <;> rfl
  · rw [notJson]
    split <;> rfl
  · rfl

theorem toCall_pending (inner : Units) (pending : Bool) :
    (toCall inner pending).pending = pending := by
  rw [toCall]
  split
  · rw [notJson]
    split <;> rfl
  · rw [notJson]
    split <;> rfl
  · rfl

theorem parseToolCalls_bare {raw : Units} (h : plain raw = false) :
    (parseToolCalls lower raw).calls.map ToolCall.bare =
      (founds (cleaned raw)).map Found.call := by
  rw [parseToolCalls,h]
  simp only [Bool.false_eq_true,if_false]
  rw [attachAll_bare,read_calls,List.map_map]
  exact List.map_congr_left (fun f _ => toCall_bare f.inner _)

theorem plain_append {r : Units} (h : plain r = false) (s : Units) : plain (r ++ s) = false := by
  have hincludes : ∀ m, includes m r = true → includes m (r ++ s) = true := by
    intro m hm
    obtain ⟨p,hp⟩ := Option.isSome_iff_exists.mp hm
    rw [includes,cut_append hp s]
    rfl
  rw [plain,Bool.or_eq_false_iff,List.isEmpty_eq_false_iff,Bool.and_eq_false_iff,
    Bool.not_eq_false',Bool.not_eq_false'] at h ⊢
  exact ⟨List.append_ne_nil_of_left_ne_nil h.1 s,h.2.imp (hincludes _) (hincludes _)⟩

theorem closedCalls_bare {raw : Units} (h : plain raw = false) :
    (closedCalls lower raw).map ToolCall.bare =
      ((founds (cleaned raw)).filter (·.ending = .closed)).map Found.call := by
  have hcalls := parseToolCalls_bare lower h
  rw [closedCalls,endings,h]
  simp only [Bool.false_eq_true,if_false]
  generalize (parseToolCalls lower raw).calls = cs at hcalls
  generalize founds (cleaned raw) = fs at hcalls
  induction fs generalizing cs with
  | nil =>
    obtain rfl : cs = [] := List.map_eq_nil_iff.mp hcalls
    rfl
  | cons f fs ih =>
    cases cs with
    | nil => cases hcalls
    | cons c cs =>
      rw [List.map_cons,List.map_cons,List.cons.injEq] at hcalls
      by_cases hf : f.ending = .closed
      · simp [hf,ih cs hcalls.2,hcalls.1]
      · simp [hf,ih cs hcalls.2]

/-- The calls that are closed come first, whatever text comes later. -/
theorem closedCalls_isPrefix {r : Units} (h : ResponsesClosed r) (s : Units) :
    (closedCalls lower r).map ToolCall.bare <+:
      (parseToolCalls lower (r ++ s)).calls.map ToolCall.bare := by
  cases hr : plain r with
  | true =>
    have hnil : closedCalls lower r = [] := by
      rw [closedCalls,endings,hr]
      simp
    rw [hnil]
    exact List.nil_prefix
  | false =>
    obtain ⟨p,u,hp,hu,happ⟩ := cleaned_append r h
    obtain ⟨w,hw⟩ := happ s
    rw [closedCalls_bare lower hr,parseToolCalls_bare lower (plain_append hr s),hp,hw]
    exact (founds_append hu w).map Found.call

theorem streaming_last (s : Units) {i : ℕ} {f : Found} (hi : (founds s)[i]? = some f)
    (hf : f.ending = .streaming) : i + 1 = (founds s).length := by
  induction s using nextCall_shortens.induction generalizing i with
  | hnone s h =>
    rw [founds,split_of_none h] at hi
    cases hi
  | hsome s g rest h ih =>
    rw [founds,split_of_some nextCall_shortens h] at hi ⊢
    cases i with
    | zero =>
      cases hi
      rw [nextCall_streaming h hf,split_of_none nextCall_shortens.nil]
      rfl
    | succ i => exact congrArg (· + 1) (ih hi)

theorem pending_last (raw : Units) {i : ℕ} {c : ToolCall}
    (hi : (parseToolCalls lower raw).calls[i]? = some c) (hc : c.pending = true) :
    i + 1 = (parseToolCalls lower raw).calls.length := by
  cases h : plain raw with
  | true =>
    rw [parseToolCalls,h] at hi
    cases hi
  | false =>
    have hcalls := parseToolCalls_bare lower h
    have hlen := congrArg List.length hcalls
    have hget := congrArg (·[i]?) hcalls
    simp only [List.getElem?_map,hi,Option.map_some] at hget
    obtain ⟨f,hf,hfc⟩ := Option.map_eq_some_iff.mp hget.symm
    rw [List.length_map,List.length_map] at hlen
    rw [hlen]
    refine streaming_last _ hf ?_
    have hpending : f.call.pending = true := (congrArg ToolCall.pending hfc).trans hc
    rw [Found.call,toCall_pending] at hpending
    simpa using hpending

theorem segments_calls (raw : Units) :
    (parseToolCalls lower raw).segments.filterMap Segment.call? =
      (parseToolCalls lower raw).calls := by
  rw [parseToolCalls]
  split
  · split <;> rfl
  · have hlisted := read_listed (cleaned raw)
    rw [Reading.Listed,← attachAll_length lower _ (results raw)] at hlisted
    rw [resolve_calls,hlisted]
    exact filterMap_range _

/-- What has streamed in stays: the closed calls of a reply are the first calls of every longer
one. Only the last call is ever pending, and the call segments are the calls in order. -/
theorem parseToolCalls_stable :
    (∀ r s, ResponsesClosed r →
      (closedCalls lower r).map ToolCall.bare <+:
        (parseToolCalls lower (r ++ s)).calls.map ToolCall.bare) ∧
    ∀ t, (∀ i c, (parseToolCalls lower t).calls[i]? = some c → c.pending = true →
        i + 1 = (parseToolCalls lower t).calls.length) ∧
      (parseToolCalls lower t).segments.filterMap Segment.call? =
        (parseToolCalls lower t).calls :=
  ⟨fun _ s h => closedCalls_isPrefix lower h s,
    fun t => ⟨fun _ _ => pending_last lower t,segments_calls lower t⟩⟩

/-- A reply that stops in the middle of its second `<tool_response>`. -/
theorem halfTag_stable :
    (closedCalls id (units "<tool_call>get_news()</tool_call><tool_response>two</tool_response><tool_re")).map
        ToolCall.bare <+:
      (parseToolCalls id
        (units "<tool_call>get_news()</tool_call><tool_response>two</tool_response><tool_re" ++
          units "sponse></tool_call>")).calls.map ToolCall.bare :=
  (parseToolCalls_stable id).1 _ _ (by decide +kernel)

end Parse

end Rullama.ToolCalls
