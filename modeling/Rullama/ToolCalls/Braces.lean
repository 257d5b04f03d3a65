import Rullama.ToolCalls.Scan

/-! # Objects without a closer

Where a call has no closer, the brace matcher looks for the end of its object. On text that
`JSON.parse` reads as an object it finds exactly that end, whatever comes behind.
-/
namespace Rullama.ToolCalls
open Text Text.Json

/-! ## One unit -/

section Step

variable (d : ℤ) (s : Units)

theorem balanced_plain {c : UInt16} (hc : Plain c) :
    balanced d false false (c :: s) =
      (balanced d false false s).map (fun p => (c :: p.1,p.2)) := by
  rw [balanced]
  simp only [Bool.false_eq_true,if_false,if_neg hc.1,if_neg hc.2.1,if_neg hc.2.2]

theorem balanced_quote :
    balanced d false false (unit '"' :: s) =
      (balanced d true false s).map (fun p => (unit '"' :: p.1,p.2)) := by
  rw [balanced]
  simp only [Bool.false_eq_true,if_false,if_true]

theorem balanced_open :
    balanced d false false (unit '{' :: s) =
      (balanced (d + 1) false false s).map (fun p => (unit '{' :: p.1,p.2)) := by
  have hquote : unit '{' ≠ unit '"' := by decide
  rw [balanced]
  simp only [Bool.false_eq_true,if_false,if_true,if_neg hquote]

theorem balanced_close :
    balanced d false false (unit '}' :: s) =
      if d - 1 = 0 then some ([unit '}'],s)
      else (balanced (d - 1) false false s).map (fun p => (unit '}' :: p.1,p.2)) := by
  have hquote : unit '}' ≠ unit '"' := by decide
  have hopen : unit '}' ≠ unit '{' := by decide
  rw [balanced]
  simp only [Bool.false_eq_true,if_false,if_true,if_neg hquote,if_neg hopen]

theorem balanced_endQuote :
    balanced d true false (unit '"' :: s) =
      (balanced d false false s).map (fun p => (unit '"' :: p.1,p.2)) := by
  have hback : unit '"' ≠ unit '\\' := by decide
  rw [balanced]
  simp only [Bool.false_eq_true,if_false,if_true,if_neg hback,ne_eq,not_true_eq_false,
    decide_false]

theorem balanced_quoted {c : UInt16} (hquote : c ≠ unit '"') (hback : c ≠ unit '\\') :
    balanced d true false (c :: s) =
      (balanced d true false s).map (fun p => (c :: p.1,p.2)) := by
  rw [balanced]
  simp only [Bool.false_eq_true,if_false,if_true,if_neg hback,ne_eq,hquote,not_false_eq_true,
    decide_true]

theorem balanced_escape (e : UInt16) :
    balanced d true false (unit '\\' :: e :: s) =
      (balanced d true false s).map (fun p => (unit '\\' :: e :: p.1,p.2)) := by
  rw [balanced]
  simp only [Bool.false_eq_true,if_false,if_true]
  rw [balanced]
  simp only [if_true,Option.map_map]
  rfl

end Step

/-! ## What JSON is made of -/

/-- The matcher passes over the text between the two and is then as before. -/
def Passes (s rest : Units) : Prop :=
  ∃ t, s = t ++ rest ∧ ∀ d : ℤ, 1 ≤ d → ∀ u,
    balanced d false false (t ++ u) = (balanced d false false u).map (fun p => (t ++ p.1,p.2))

/-- The same from within a string to behind its closing quote. -/
theorem quoted_passes {s rest : Units} (h : Quoted s rest) :
    ∃ t, s = t ++ rest ∧ ∀ (d : ℤ) u,
      balanced d true false (t ++ u) = (balanced d false false u).map (fun p => (t ++ p.1,p.2)) := by
  induction h with
  | close rest => exact ⟨[unit '"'],rfl,fun d u => balanced_endQuote d u⟩
  | @plain c s rest hquote hback _ ih =>
    obtain ⟨t,rfl,ht⟩ := ih
    refine ⟨c :: t,rfl,fun d u => ?_⟩
    rw [List.cons_append,balanced_quoted d _ hquote hback,ht,Option.map_map]
    rfl
  | @escape e s rest _ ih =>
    obtain ⟨t,rfl,ht⟩ := ih
    refine ⟨unit '\\' :: e :: t,rfl,fun d u => ?_⟩
    rw [List.cons_append,List.cons_append,balanced_escape,ht,Option.map_map]
    rfl

theorem skipper_passes : Skipper Passes where
  refl s := ⟨[],rfl,fun d _ u => by simp⟩
  trans := by
    rintro s t u ⟨a,rfl,ha⟩ ⟨b,rfl,hb⟩
    refine ⟨a ++ b,(List.append_assoc ..).symm,fun d hd v => ?_⟩
    rw [List.append_assoc,ha d hd,hb d hd,Option.map_map]
    simp only [Function.comp_def,List.append_assoc]
  plain {c} s hc := ⟨[c],rfl,fun d _ u => balanced_plain d u hc⟩
  string := by
    intro s rest h
    obtain ⟨t,rfl,ht⟩ := quoted_passes h
    refine ⟨unit '"' :: t,rfl,fun d _ u => ?_⟩
    rw [List.cons_append,balanced_quote,ht,Option.map_map]
    rfl
  braces := by
    rintro s rest ⟨t,rfl,ht⟩
    refine ⟨unit '{' :: (t ++ [unit '}']),by simp,fun d hd u => ?_⟩
    have hne : d + 1 - 1 ≠ 0 := by omega
    rw [List.cons_append,List.append_assoc,balanced_open,ht (d + 1) (by omega),
      List.singleton_append,balanced_close,if_neg hne,Int.add_sub_cancel,Option.map_map,
      Option.map_map]
    simp only [Function.comp_def,List.append_assoc,List.cons_append,List.nil_append]

/-! ## The end of an object -/

/-- The text that `JSON.parse` reads as an object ends where its braces balance. -/
theorem balanced_of_parse {s : Units} {fields : List (Units × Value)}
    (h : Json.parse s = some (.object fields)) :
    ∃ w t rest, s = w ++ (unit '{' :: (t ++ unit '}' :: rest)) ∧ Blank w ∧ Blank rest ∧
      ∀ u, balanced 0 false false (unit '{' :: (t ++ unit '}' :: u)) =
        some (unit '{' :: (t ++ [unit '}']),u) := by
  rw [Json.parse] at h
  split at h
  · cases h
  · rename_i v rest hv
    split at h
    · rename_i hrest
      cases h
      obtain ⟨cs,hcs,t,rfl,ht⟩ := members_of_value skipper_passes hv
      obtain ⟨w,hw,hs⟩ := exists_skip s
      obtain ⟨w',hw',hrest'⟩ := exists_skip rest
      rw [hrest,List.append_nil] at hrest'
      rw [hcs] at hs
      refine ⟨w,t,rest,hs,hw,hrest' ▸ hw',fun u => ?_⟩
      rw [balanced_open,Int.zero_add,ht 1 (Int.le_refl 1),balanced_close]
      rfl
    · cases h

/-- A call whose body is an object ends there, whatever comes behind it. -/
theorem matchJsonEnd_of_parse {j : Units} {fields : List (Units × Value)}
    (h : Json.parse (trim j) = some (.object fields)) :
    ∃ inner w, j = inner ++ w ∧ Blank w ∧ (∃ v t, Blank v ∧ inner = v ++ unit '{' :: t) ∧
      ∀ u, matchJsonEnd (inner ++ u) = some (inner,u) := by
  obtain ⟨w₁,w₂,hw₁,hw₂,hj⟩ := exists_trim j
  obtain ⟨w,t,rest,hs,hw,hrest,hbal⟩ := balanced_of_parse h
  have hblank : Blank (w₁ ++ w) := fun c hc => (List.mem_append.mp hc).elim (hw₁ c) (hw c)
  refine ⟨w₁ ++ w ++ (unit '{' :: (t ++ [unit '}'])),rest ++ w₂,?_,?_,?_,fun u => ?_⟩
  · rw [hj,hs]
    simp only [List.append_assoc,List.cons_append,List.nil_append]
  · exact fun c hc => (List.mem_append.mp hc).elim (hrest c) (hw₂ c)
  · exact ⟨w₁ ++ w,t ++ [unit '}'],hblank,rfl⟩
  · have htext : w₁ ++ w ++ (unit '{' :: (t ++ [unit '}'])) ++ u =
        w₁ ++ w ++ (unit '{' :: (t ++ unit '}' :: u)) := by
      simp only [List.append_assoc,List.cons_append,List.nil_append]
    have hdrop := dropWhile_blank hblank (c := unit '{') (by decide) (t ++ unit '}' :: u)
    have htake : (w₁ ++ w ++ (unit '{' :: (t ++ unit '}' :: u))).takeWhile isSpace = w₁ ++ w := by
      have hsplit := List.takeWhile_append_dropWhile (p := isSpace)
        (l := w₁ ++ w ++ (unit '{' :: (t ++ unit '}' :: u)))
      rw [hdrop] at hsplit
      exact List.append_cancel_right hsplit
    rw [htext]
    simp only [matchJsonEnd,hdrop,htake,List.head?_cons,if_true,hbal,Option.map_some]

end Rullama.ToolCalls
