import Rullama.Native.PythonicCalls

/-! # Where the port agrees

The arguments of one call, read by both apps part by part.
-/
namespace Rullama.Native.ToolCalling
open Text
open Text.Json (Value put)
open ToolCalls (addArg isIdentifier parseScalar)

/-! ## Steady calls -/

section Steady

variable {number : Units → Units} {order : List Units} {i pos : ℕ} {a : Arg} {args : List Arg}

theorem Aligned.tail (h : Aligned number order i pos (a :: args)) :
    ∃ pos', Aligned number order (i + 1) pos' args := by
  obtain ⟨-,-,hrest⟩ := h
  cases hk : a.key with
  | none =>
    rw [hk] at hrest
    exact ⟨pos + 1,hrest.2.2.2⟩
  | some key =>
    rw [hk] at hrest
    exact ⟨pos,hrest.2⟩

theorem Arg.WellFormed.text_ne (h : a.WellFormed) : a.text ≠ [] :=
  List.append_ne_nil_of_right_ne_nil _ (List.append_ne_nil_of_left_ne_nil h.tight.ne _)

theorem parts_join (hargs : ∀ a ∈ args, a.WellFormed) (h : Aligned number order i pos args)
    (q : UInt16) : parts 0 false q [] (joinArgs args) = args.map Arg.text := by
  induction args generalizing i pos q with
  | nil => rfl
  | cons a args ih =>
    obtain ⟨ha,hargs⟩ := List.forall_mem_cons.mp hargs
    obtain ⟨pos',htail⟩ := h.tail
    obtain ⟨st,hst,hend⟩ := scan_arg ha h.2.1 q
    cases args with
    | nil =>
      have hparts := parts_of_scan hst [] []
      rw [List.append_nil,List.nil_append,parts,if_neg ha.text_ne] at hparts
      exact hparts
    | cons b args =>
      rcases hend with hlast | ⟨q',rfl⟩
      · cases hlast
      · have hparts := parts_of_scan hst [] (unit ',' :: joinArgs (b :: args))
        rw [joinArgs,hparts,List.nil_append,parts_comma,ih hargs htail]
        rfl

end Steady

/-! ## Both argument maps -/

def printed (number : Units → Units) (fields : List (Units × Value)) : Args :=
  fields.map (fun f => (f.1,valueText number f.2))

theorem lookup_printed (number : Units → Units) (fields : List (Units × Value)) (key : Units) :
    (printed number fields).lookup key = (fields.lookup key).map (valueText number) := by
  induction fields with
  | nil => rfl
  | cons f fields ih =>
    rw [printed,List.map_cons,List.lookup_cons,List.lookup_cons]
    cases hk : key == f.1 with
    | true => rfl
    | false => exact ih

theorem printed_put (number : Units → Units) (fields : List (Units × Value)) (key : Units)
    (v : Value) :
    printed number (put fields key v) = set (printed number fields) key (valueText number v) := by
  have hany : (printed number fields).any (fun f => f.1 == key) =
      fields.any (fun f => f.1 == key) := by
    rw [printed,List.any_map]
    rfl
  rw [put,set,hany]
  split
  · simp only [printed,List.map_map]
    refine List.map_congr_left (fun f _ => ?_)
    simp only [Function.comp_apply]
    split
    · rfl
    · rfl
  · simp only [printed,List.map_append,List.map_cons,List.map_nil]

/-! ## One argument -/

theorem key_not_eq {key : Units} (h : isIdentifier key = true) : ∀ c ∈ key, (c ≠ unit '=') := by
  intro c hc
  exact (mark_not_word ((isIdentifier_word h).2 c hc)).2

theorem takeWhile_key {key : Units} (h : isIdentifier key = true) (t : Units) :
    (key ++ unit '=' :: t).takeWhile (· ≠ unit '=') = key := by
  have hpos : ∀ c ∈ key, decide (c ≠ unit '=') = true := fun c hc =>
    decide_eq_true (key_not_eq h c hc)
  rw [List.takeWhile_append_of_pos hpos,List.takeWhile_cons_of_neg (by simp),List.append_nil]

section Arguments

variable {a : Arg} (ha : a.WellFormed)
include ha

theorem Arg.WellFormed.trim_text : trim a.text = a.core := ha.tight.trim_padded' ha.before ha.after

section Keyword

variable {key : Units} (hk : a.key = some key)
include hk

omit ha in
theorem Arg.core_keyword : a.core = key ++ unit '=' :: a.literal.text := by
  rw [Arg.core,Arg.keyText,hk]
  exact List.append_assoc _ _ _

theorem left_keyword : a.core.takeWhile (· ≠ unit '=') = key := by
  rw [Arg.core_keyword hk]
  exact takeWhile_key (ha.key key hk) _

omit ha in
theorem drop_keyword : a.core.drop (key.length + 1) = a.literal.text := by
  rw [Arg.core_keyword hk,List.append_cons]
  exact List.drop_left' (by simp)

omit ha in
theorem key_ne_core : key ≠ a.core := by
  rw [Arg.core_keyword hk]
  intro h
  have hlen := congrArg List.length h
  rw [List.length_append,List.length_cons] at hlen
  omega

theorem addArg_keyword (order : List Units) (fields : List (Units × Value)) (i : ℕ)
    (hproto : key ≠ units "__proto__") :
    addArg order fields (a.core,i) = put fields key (parseScalar a.literal.text) := by
  have hid := ha.key key hk
  obtain ⟨hne,hword⟩ := isIdentifier_word hid
  have htrim : Text.trim key = key := (tight_of_word hne hword).trim_eq
  simp only [addArg,left_keyword ha hk,drop_keyword hk,htrim]
  rw [if_pos ⟨key_ne_core hk,hne,hid⟩,ToolCalls.assign,if_neg hproto]

theorem addPart_keyword (order : List Units) (args : Args) (pos : ℕ) :
    addPart order (args,pos) a.text = (set args key (unquote a.literal.text),pos) := by
  have hid := ha.key key hk
  obtain ⟨hne,hword⟩ := isIdentifier_word hid
  have htrim : trim key = key := (tight_of_word hne hword).trim_eq'
  have hmark : unit '"' ∉ key := fun hmem => (mark_not_word (hword _ hmem)).1 (by decide)
  simp only [addPart,ha.trim_text,left_keyword ha hk,drop_keyword hk,htrim,
    ha.literal.tight.trim_eq']
  rw [if_neg ha.tight.ne,if_pos ⟨key_ne_core hk,hne,hmark⟩]

end Keyword

section Positional

variable (hk : a.key = none)
include hk

omit ha in
theorem Arg.core_positional : a.core = a.literal.text := by
  rw [Arg.core,Arg.keyText,hk]
  exact List.nil_append _

/-- What stands before a sign of equality in a literal begins with a quote. -/
theorem not_isIdentifier_left : ¬ (a.core.takeWhile (· ≠ unit '=') ≠ a.core ∧
    a.core.takeWhile (· ≠ unit '=') ≠ [] ∧
    isIdentifier (Text.trim (a.core.takeWhile (· ≠ unit '='))) = true) := by
  rintro ⟨hleft,-,hid⟩
  have hlit := ha.literal
  rw [Arg.core_positional hk] at hleft hid
  cases hl : a.literal with
  | bare t =>
    rw [hl] at hleft hlit
    refine hleft (List.takeWhile_eq_self_iff.mpr (fun c hc => ?_))
    exact decide_eq_true (hlit.2.1 c hc).2
  | quoted q body =>
    rw [hl] at hid hlit
    have hq : q ≠ unit '=' := by
      rcases hlit.1 with rfl | rfl <;> decide
    have hspace : isSpace q = false := (isSpace_of_isPadding (isPadding_quote hlit.1)).1
    have hword : isWord q = false := by
      rcases hlit.1 with rfl | rfl <;> decide
    rw [Literal.text,List.takeWhile_cons_of_pos (by simpa using hq)] at hid
    have hhead : (Text.trim (q :: (body ++ [q]).takeWhile (· ≠ unit '='))).head? = some q := by
      rw [head?_trim,trimStart,List.dropWhile_cons_of_neg (by simp [hspace])]
      rfl
    have hfirst := (isIdentifier_word hid).2 q (List.mem_of_mem_head? hhead)
    rw [hword] at hfirst
    cases hfirst

theorem addArg_positional {order : List Units} {i : ℕ} (hi : i < order.length)
    (fields : List (Units × Value)) :
    addArg order fields (a.core,i) =
      ToolCalls.assign fields order[i] (parseScalar a.literal.text) := by
  have hnot := not_isIdentifier_left ha hk
  simp only [addArg]
  rw [if_neg hnot,Arg.core_positional hk,List.getD_eq_getElem?_getD,List.getElem?_eq_getElem hi,
    Option.getD_some]

theorem addPart_positional {order : List Units} {pos : ℕ} (hpos : pos < order.length)
    (hplain : a.literal.Plain) (args : Args) :
    addPart order (args,pos) a.text =
      (set args order[pos] (unquote a.literal.text),pos + 1) := by
  have hcore := Arg.core_positional hk
  simp only [addPart,ha.trim_text]
  rw [if_neg ha.tight.ne,if_neg,List.getElem?_eq_getElem hpos,hcore]
  rw [hcore]
  rintro ⟨hleft,-,hmark⟩
  rcases hplain with h | h
  · exact hleft h
  · exact hmark h

end Positional

end Arguments

/-! ## The whole call -/

theorem foldl_printed {number : Units → Units} {order : List Units}
    (hproto : units "__proto__" ∉ order) {args : List Arg} (hargs : ∀ a ∈ args, a.WellFormed)
    {i pos : ℕ} (h : Aligned number order i pos args) (fields : List (Units × Value)) :
    printed number (((args.map Arg.core).zipIdx i).foldl (addArg order) fields) =
      ((args.map Arg.text).foldl (addPart order) (printed number fields,pos)).1 := by
  induction args generalizing i pos fields with
  | nil => rfl
  | cons a args ih =>
    obtain ⟨ha,hargs⟩ := List.forall_mem_cons.mp hargs
    obtain ⟨hverbatim,-,hrest⟩ := h
    have hvalue := valueText_parseScalar ha.literal hverbatim
    rw [List.map_cons,List.zipIdx_cons,List.foldl_cons,List.map_cons,List.foldl_cons]
    cases hk : a.key with
    | none =>
      rw [hk] at hrest
      obtain ⟨rfl,hi,hplain,hrest⟩ := hrest
      have hname : order[pos] ≠ units "__proto__" := fun heq => hproto (heq ▸ List.getElem_mem hi)
      rw [addArg_positional ha hk hi,ToolCalls.assign,if_neg hname,
        addPart_positional ha hk hi hplain,ih hargs hrest,printed_put,hvalue]
    | some key =>
      rw [hk] at hrest
      rw [addArg_keyword ha hk order fields i hrest.1,addPart_keyword ha hk,ih hargs hrest.2,
        printed_put,hvalue]

theorem known {name : Units} {order : List Units} (h : toolParams.lookup name = some order) :
    isIdentifier name = true ∧ units "__proto__" ∉ order ∧
      ToolCalls.toolParams.lookup name = some order := by
  have hall : ∀ t ∈ toolParams, isIdentifier t.1 = true ∧ units "__proto__" ∉ t.2 := by decide
  have htable : ToolCalls.toolParams = toolParams ++ [(units "calculate",[units "problem"])] := by
    decide
  obtain ⟨before,after,hsplit,-⟩ := List.lookup_eq_some_iff.mp h
  have hmem : (name,order) ∈ toolParams := by
    rw [hsplit]
    exact List.mem_append_right _ List.mem_cons_self
  refine ⟨(hall _ hmem).1,(hall _ hmem).2,?_⟩
  rw [htable,List.lookup_append,h,Option.some_or]

section Call

variable {name : Units} (hname : isIdentifier name = true) (args : List Arg)
include hname

theorem takeWhile_callText : (callText name args).takeWhile isWord = name := by
  rw [callText,List.takeWhile_append_of_pos (isIdentifier_word hname).2,
    List.takeWhile_cons_of_neg (by decide),List.append_nil]

theorem dropWhile_callText :
    (callText name args).dropWhile isWord = unit '(' :: (joinArgs args ++ [unit ')']) := by
  rw [callText,List.dropWhile_append_of_pos (isIdentifier_word hname).2,
    List.dropWhile_cons_of_neg (by decide)]

theorem head?_callText {c : UInt16} (h : (callText name args).head? = some c) : isWord c = true := by
  obtain ⟨hne,hword⟩ := isIdentifier_word hname
  rw [callText,List.head?_append_of_ne_nil _ hne] at h
  exact hword c (List.mem_of_mem_head? h)

end Call

theorem strip_brackets (p : UInt16 → Bool) (hopen : p (unit '(') = false)
    (hclose : p (unit ')') = false) (t : Units) :
    ((unit '(' :: (t ++ [unit ')'])).dropWhile p).rdropWhile p = unit '(' :: (t ++ [unit ')']) := by
  have hstrip := @strip_padded p [] (unit '(' :: (t ++ [unit ')'])) [] nofun nofun
    (List.cons_ne_nil _ _)
  rw [List.nil_append,List.append_nil] at hstrip
  refine hstrip (fun c hc => ?_) (fun c hc => ?_)
  · cases hc
    exact hopen
  · rw [← List.cons_append,List.getLast?_append_of_ne_nil _ (List.cons_ne_nil _ [])] at hc
    cases hc
    exact hclose

theorem matchCall_callText {name : Units} (hname : isIdentifier name = true) (args : List Arg) :
    matchCall (callText name args) = some (name,joinArgs args) := by
  have hstrip := strip_brackets isWhiteSpace (by decide) (by decide) (joinArgs args)
  simp only [matchCall,takeWhile_callText hname,dropWhile_callText hname,hstrip]
  rw [if_pos,List.tail_cons,List.dropLast_concat]
  exact ⟨hname,rfl,by rw [List.tail_cons,List.getLast?_concat]⟩

theorem parsePythonicCall_callText {name : Units} {order : List Units}
    (h : toolParams.lookup name = some order) {args : List Arg}
    (hargs : ∀ a ∈ args, a.WellFormed) :
    ToolCalls.parsePythonicCall (callText name args) =
      some (name,.object ((args.map Arg.core).zipIdx.foldl (addArg order) [])) := by
  obtain ⟨hname,-,hweb⟩ := known h
  have hstart : trimStart (callText name args) = callText name args := by
    cases ht : callText name args with
    | nil => rfl
    | cons c t =>
      have hword := head?_callText hname args (congrArg List.head? ht)
      have hspace := (isSpace_of_isPadding (padding_not_word hword)).1
      exact List.dropWhile_cons_of_neg (by simp [hspace])
  have hstrip : trimEnd (trimStart (unit '(' :: (joinArgs args ++ [unit ')']))) =
      unit '(' :: (joinArgs args ++ [unit ')']) :=
    strip_brackets isSpace (by decide) (by decide) (joinArgs args)
  have hsplit : (if Text.trim (joinArgs args) = [] then []
      else (ToolCalls.splitArgs (Text.trim (joinArgs args))).zipIdx.foldl (addArg order) []) =
      (args.map Arg.core).zipIdx.foldl (addArg order) [] := by
    have hcore := (web_splitArgs_trim (joinArgs args)).trans (web_splitArgs_join hargs)
    split
    · rename_i hempty
      rw [← hcore,hempty]
      rfl
    · rw [hcore]
  simp only [ToolCalls.parsePythonicCall,hstart,takeWhile_callText hname,dropWhile_callText hname,
    hstrip,hweb,Option.getD_some,List.tail_cons,List.dropLast_concat,hsplit]
  rw [if_pos]
  exact ⟨hname,rfl,List.getLast?_concat⟩

theorem parseInner_callText {name : Units} {order : List Units}
    (h : toolParams.lookup name = some order) (args : List Arg)
    (jsonForm : Units → Option (Units × Args)) :
    parseInner jsonForm (callText name args) =
      (name,((splitArgs (joinArgs args)).foldl (addPart order) ([],0)).1) := by
  have hname := (known h).1
  have hbrace : (callText name args).head? ≠ some (unit '{') := fun hc => by
    have hword := head?_callText hname args hc
    exact absurd hword (by decide)
  simp only [parseInner,hbrace,if_false,matchCall_callText hname,h,Option.getD_some]

/-- For the tools in the table of the port, which the web app has too. -/
theorem agrees_of_aligned (number : Units → Units) (jsonForm : Units → Option (Units × Args))
    {name : Units} {order : List Units} (hname : toolParams.lookup name = some order)
    {args : List Arg} (hargs : ∀ a ∈ args, a.WellFormed) (h : Aligned number order 0 0 args) :
    Agrees number jsonForm (callText name args) := by
  refine ⟨name,_,_,parsePythonicCall_callText hname hargs,
    parseInner_callText hname args jsonForm,fun key => ?_⟩
  have hfold := foldl_printed (known hname).2.1 hargs h []
  rw [splitArgs,parts_join hargs h,← lookup_printed,hfold]
  rfl

/-- `get_weather_forecast("Paris \"FR\"", days=3)` -/
def forecast : List Arg :=
  [⟨none,.quoted (unit '"') (units "Paris \\\"FR\\\""),[],[]⟩,
    ⟨some (units "days"),.bare (units "3"),units " ",[]⟩]

theorem forecast_wellFormed : ∀ a ∈ forecast, a.WellFormed := by
  refine List.forall_mem_cons.mpr ⟨⟨nofun,⟨.inl rfl,by decide⟩,nofun,nofun⟩,
    List.forall_mem_cons.mpr ⟨⟨?_,⟨by decide,by decide,?_,?_⟩,by decide,nofun⟩,nofun⟩⟩
  · rintro key ⟨⟩
    decide
  · rintro c ⟨⟩
    decide
  · intro c hc
    cases hc
    decide

theorem forecast_aligned :
    Aligned (fun t => t) [units "location",units "days"] 0 0 forecast := by
  refine ⟨trivial,by decide,rfl,by decide,.inr (by decide),?_,by decide,by decide,trivial⟩
  exact ⟨by decide,by decide,by decide,fun _ => rfl⟩

theorem forecast_agrees :
    Agrees (fun t => t) (fun _ => none) (callText (units "get_weather_forecast") forecast) :=
  agrees_of_aligned _ _ (by decide) forecast_wellFormed forecast_aligned

/-- `search_wikipedia("say \"a, b\"")` -/
def quotation : List Arg := [⟨none,.quoted (unit '"') (units "say \\\"a, b\\\""),[],[]⟩]

theorem quotation_wellFormed : ∀ a ∈ quotation, a.WellFormed :=
  List.forall_mem_cons.mpr ⟨⟨nofun,⟨.inl rfl,by decide⟩,nofun,nofun⟩,nofun⟩

/-- The port splits the string at its comma. -/
theorem quotation_not_agrees :
    toolParams.lookup (units "search_wikipedia") = some [units "query"] ∧
      (∀ a ∈ quotation, a.WellFormed) ∧
      ¬ Agrees (fun t => t) (fun _ => none) (callText (units "search_wikipedia") quotation) := by
  have hname : toolParams.lookup (units "search_wikipedia") = some [units "query"] := by decide
  refine ⟨hname,quotation_wellFormed,?_⟩
  rintro ⟨name,fields,args,hweb,hnative,hall⟩
  rw [parsePythonicCall_callText hname quotation_wellFormed] at hweb
  rw [parseInner_callText hname] at hnative
  cases hweb
  cases hnative
  have hquery := hall (units "query")
  revert hquery
  decide +kernel

end Rullama.Native.ToolCalling
