import Rullama.ToolCalls.Emission

/-! # Inversion

The parser inverts emission where nothing that is emitted looks like a marker in the wrong place.
-/
namespace Rullama.ToolCalls
open Text Text.Json

/-! ## From the reading to the parsed reply -/

theorem cleaned_of_results {raw : Units} (h : results raw = []) : cleaned raw = raw := by
  induction raw using place_induction with
  | hnil => rfl
  | hspan s res rest hres _ =>
    rw [results_span hres] at h
    cases h
  | hcons c s hnone ih =>
    rw [results_cons hnone] at h
    rw [cleaned_cons hnone,ih h]

theorem nextCall_of_plain {raw : Units} (h : plain raw = true) : nextCall raw = none := by
  rw [plain,Bool.or_eq_true,Bool.and_eq_true,Bool.not_eq_true'] at h
  rcases h with h | ⟨h,-⟩
  · rw [List.isEmpty_iff.mp h]
    exact nextCall_shortens.nil
  · have hcut : cut toolCallOpenPrefix raw = none :=
      Option.isNone_iff_eq_none.mp (Option.isSome_eq_false_iff.mp h)
    rw [nextCall,hcut]

theorem nextThought_of_plain {raw : Units} (h : plain raw = true) : nextThought raw = none := by
  rw [plain,Bool.or_eq_true,Bool.and_eq_true,Bool.not_eq_true',Bool.not_eq_true'] at h
  rcases h with h | ⟨-,h⟩
  · rw [List.isEmpty_iff.mp h]
    exact nextThought_shortens.nil
  · have hcut : cut channelOpen raw = none :=
      Option.isNone_iff_eq_none.mp (Option.isSome_eq_false_iff.mp h)
    rw [nextThought,hcut]

/-- The pieces that the segments of a state show. -/
def Reading.shown (st : Reading) : List (Option Piece) :=
  (st.segments.filterMap (Segment.resolve st.calls)).map Segment.piece

theorem parse_reading (lower : Units → Units) {raw : Units} (h : results raw = []) :
    (parseToolCalls lower raw).segments.map Segment.piece = (readFrom {} raw).shown ∧
      (parseToolCalls lower raw).calls = (readFrom {} raw).calls ∧
      (parseToolCalls lower raw).pending = (readFrom {} raw).pending := by
  cases hplain : plain raw with
  | true =>
    have hread : readFrom {} raw = addText {} raw := by
      rw [readFrom_none (nextCall_of_plain hplain),addProse_none (nextThought_of_plain hplain)]
    rw [parseToolCalls,if_pos hplain,hread]
    refine ⟨?_,rfl,rfl⟩
    simp only [Reading.shown,addText]
    by_cases htrim : trim raw = []
    · simp [htrim]
    · simp [htrim,Segment.resolve,Segment.piece,trim_trim]
  | false =>
    rw [parseToolCalls,if_neg (by rw [hplain]; exact Bool.false_ne_true),cleaned_of_results h,h]
    exact ⟨rfl,rfl,rfl⟩

/-! ## What was emitted -/

theorem proseSegment_piece (cs : List ToolCall) (w : Units) :
    ((proseSegment w).filterMap (Segment.resolve cs)).map Segment.piece =
      (prosePiece w).map some := by
  rw [proseSegment,prosePiece]
  split
  · rfl
  · simp [Segment.resolve,Segment.piece,trim_trim]

theorem segs_piece {items : List Item} {w : Units} (hw : Emitted w items) (hr : Readable items)
    (pre : List ToolCall) :
    ((segs pre.length w items).filterMap (Segment.resolve (pre ++ emittedCalls items))).map
      Segment.piece = (pieces w items).map some := by
  induction items generalizing w pre with
  | nil => exact proseSegment_piece _ w
  | cons item items ih =>
    cases item with
    | prose t => exact ih hw hr pre
    | thinking t =>
      have h := ih (w := []) hw.2.2 hr.2 pre
      simp only [segs,pieces,List.filterMap_append,List.map_append,proseSegment_piece]
      refine congrArg ((prosePiece w).map some ++ ·) ?_
      exact congrArg (some (Piece.thinking (dropNewline t)) :: ·) h
    | call body bracket closer =>
      obtain ⟨hrun,hbody,hrest⟩ := hw
      obtain ⟨⟨name,args⟩,hdecl⟩ := Option.isSome_iff_exists.mp hbody
      have hcall := toCall_declared hdecl (hr.1.1 _ _ hdecl) false
      have h := ih (w := []) hrest hr.2 (pre ++ [toCall body false])
      have hcalls : pre ++ emittedCalls (.call body bracket closer :: items) =
          pre ++ [toCall body false] ++ emittedCalls items := by
        rw [List.append_assoc]
        rfl
      have hget : (pre ++ [toCall body false] ++ emittedCalls items)[pre.length]? =
          some (toCall body false) := by
        rw [List.append_assoc,List.getElem?_append_right (Nat.le_refl _),Nat.sub_self]
        rfl
      rw [List.length_append,List.length_singleton] at h
      simp only [segs,pieces,List.filterMap_append,List.map_append,proseSegment_piece,hdecl,
        Option.getD_some]
      refine congrArg ((prosePiece w).map some ++ ·) ?_
      rw [hcalls,List.filterMap_cons,Segment.resolve,hget,Option.map_some]
      simp only [List.map_cons]
      rw [h]
      refine congrArg (· :: (pieces [] items).map some) ?_
      rw [hcall]
      rfl

theorem emittedCalls_declared {items : List Item} {w : Units} (hw : Emitted w items)
    (hr : Readable items) :
    (emittedCalls items).map (fun c => (c.name,c.arguments)) = declaredCalls items := by
  induction items generalizing w with
  | nil => rfl
  | cons item items ih =>
    cases item with
    | prose t => exact ih hw hr
    | thinking t => exact ih hw.2.2 hr.2
    | call body bracket closer =>
      obtain ⟨⟨name,args⟩,hdecl⟩ := Option.isSome_iff_exists.mp hw.2.1
      have hcall := toCall_declared hdecl (hr.1.1 _ _ hdecl) false
      have h := ih hw.2.2 hr.2
      rw [emittedCalls] at h
      simp only [emittedCalls,declaredCalls,List.filterMap_cons,hdecl,List.map_cons,hcall,h]

/-- Two calls with reasoning before them, each with its closer or without it. -/
def twoCalls (first second : Bool) : List Item :=
  [.prose (units "Let me see. "),.thinking (units "\nA sum first."),
    .call
      (units "\x7b\"name\":\"calculate\",\"arguments\":\x7b\"problem\":\"1+1\"\x7d\x7d")
      true first,
    .call (units "\x7b\"name\":\"get_news\",\"arguments\":\x7b\"query\":\"ai\"\x7d\x7d")
      false second,
    .prose (units "Done.")]

theorem twoCalls_emitted (first second : Bool) : Emitted [] (twoCalls first second) := by
  refine ⟨?_,?_,?_,?_,?_,?_,(?_ : Unmarked _)⟩
  all_goals decide +kernel

theorem twoCalls_results (first second : Bool) : results (write (twoCalls first second)) = [] := by
  have hlen : ∀ first second : Bool,
      (results (write (twoCalls first second))).length = 0 := by decide +kernel
  exact List.eq_nil_of_length_eq_zero (hlen first second)

theorem name_of_declared {body n : Units} (h : (declared body).map Prod.fst = some n) (hn : n ≠ [])
    (name : Units) (args : Value) (hbody : declared body = some (name,args)) : name ≠ [] := by
  rw [hbody,Option.map_some,Option.some.injEq] at h
  rintro rfl
  exact hn h.symm

theorem twoCalls_readable : Readable (twoCalls true false) := by
  refine ⟨?_,⟨name_of_declared (n := units "calculate") ?_ ?_,?_⟩,
    ⟨name_of_declared (n := units "get_news") ?_ ?_,?_⟩,trivial⟩
  all_goals decide +kernel

theorem pythonic_name {raw name : Units} {args : Value}
    (h : parsePythonicCall raw = some (name,args)) : name ≠ [] := by
  simp only [parsePythonicCall] at h
  split at h
  · rename_i hcall
    rw [Option.some.injEq,Prod.mk.injEq] at h
    rw [h.1] at hcall
    rintro rfl
    exact absurd hcall.1 nofun
  · cases h

theorem pythonic_of_brace {raw : Units} (h : raw.head? = some (unit '{')) :
    parsePythonicCall raw = none := by
  cases raw with
  | nil => cases h
  | cons c cs =>
    cases h
    have hstart : trimStart (unit '{' :: cs) = unit '{' :: cs :=
      List.dropWhile_cons_of_neg (by decide)
    have hword : (unit '{' :: cs).takeWhile isWord = [] :=
      List.takeWhile_cons_of_neg (by decide)
    simp only [parsePythonicCall,hstart,hword,isIdentifier,Bool.false_eq_true,false_and,if_false]

/-- A call that is read with an object for its arguments has a name. -/
theorem toCall_name {inner : Units} {pending : Bool} {fields : List (Units × Value)}
    (h : (toCall inner pending).arguments = .object fields) :
    (toCall inner pending).name ≠ [] := by
  have hnot (hargs : (notJson (trim inner) pending).arguments = .object fields) :
      (notJson (trim inner) pending).name ≠ [] := by
    rw [notJson] at hargs ⊢
    split
    · rename_i hpy
      exact pythonic_name hpy
    · rename_i hpy
      rw [hpy] at hargs
      cases hargs
  rw [toCall] at h ⊢
  split
  · rename_i hparse
    rw [hparse] at h
    exact hnot h
  · rename_i hparse
    rw [hparse] at h
    exact hnot h
  · simp only
    split
    · decide
    · assumption

/-- A body that begins with a brace is read with an object only if it is one. -/
theorem parse_of_toCall {inner : Units} {pending : Bool} {fields : List (Units × Value)}
    (h : (toCall inner pending).arguments = .object fields)
    (hbrace : (trim inner).head? = some (unit '{')) :
    ∃ fields, Json.parse (trim inner) = some (.object fields) := by
  cases hparse : Json.parse (trim inner) with
  | some v =>
    obtain ⟨fields,rfl⟩ := object_of_parse hparse hbrace
    exact ⟨fields,rfl⟩
  | none =>
    simp only [toCall,hparse,notJson,pythonic_of_brace hbrace] at h
    cases h

end Rullama.ToolCalls
