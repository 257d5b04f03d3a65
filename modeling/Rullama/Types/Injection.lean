import Rullama.Agent.Stream
import Rullama.Types.WorkingSet

/-! # The working set in the prompt

The contents of the files go into the system prompt until the tokens that they may take are used up.
A file that is too large for the rest is cut, and marked with a note that is not counted.
-/
namespace Rullama.Types
open Agent (takeBytes truncateOnCharBoundary)

/-- About four characters are a token. -/
def estimateTokens (content : String) : ℕ := (content.utf8ByteSize + 3) / 4

/-- A part of the injection. -/
inductive Injected (P : Type) where
  | file (entry : WorkingSetEntry P) (content : String) (truncated : Bool)
  | unread (entry : WorkingSetEntry P) (error : String)

namespace Injected
variable {P : Type}

def entry : Injected P → WorkingSetEntry P
  | .file entry _ _ => entry
  | .unread entry _ => entry

/-- Of the content that it places. -/
def tokens : Injected P → ℕ
  | .file _ content _ => estimateTokens content
  | .unread _ _ => 0

def render (display : P → String) : Injected P → String
  | .file entry content truncated =>
    let label := (entry.label.map (fun l => " (" ++ l ++ ")")).getD ""
    "=== " ++ display entry.path ++ " " ++ label ++ (if entry.pinned then " [pinned]" else "") ++
      (if truncated then " [truncated]" else "") ++ " ===\n" ++ content
  | .unread entry error =>
    "=== " ++ display entry.path ++ " ===\n[Error reading file: " ++ error ++ "]"

end Injected

namespace WorkingSet
section Operations

variable {P : Type} (ws : WorkingSet P) (order : Order P) (read : P → Except String String)
  (maxTokens : ℕ)

/-- What the comparison of two entries does not call greater: pinned ones stand first, and of two
that are alike the one accessed later. -/
def inFront (a b : WorkingSetEntry P) : Bool :=
  match a.pinned,b.pinned with
  | true,false => true
  | false,true => false
  | _,_ => b.lastAccessTurn ≤ a.lastAccessTurn

/-- The sort is stable. -/
def injectionOrder : List (WorkingSetEntry P) :=
  ((order.arrange ws.entries).map Prod.snd).mergeSort inFront

/-- The content that is placed, and whether it is cut. -/
def fitTo (remaining : ℕ) (content : String) : String × Bool :=
  if remaining < estimateTokens content then
    let maxChars := remaining * 4
    (if maxChars < content.utf8ByteSize then
      truncateOnCharBoundary content maxChars ++ "...\n[TRUNCATED - file too large]"
    else content,true)
  else (content,false)

/-- The loop over the sorted entries, with the tokens placed so far. -/
def place : ℕ → List (WorkingSetEntry P) → ℕ × List (Injected P)
  | total,[] => (total,[])
  | total,e :: es =>
    if maxTokens ≤ total then (total,[])
    else
      match read e.path with
      | .ok content =>
        let fitted := fitTo (maxTokens - total) content
        let rest := place (total + estimateTokens fitted.1) es
        (rest.1,.file e fitted.1 fitted.2 :: rest.2)
      | .error err =>
        let rest := place total es
        (rest.1,.unread e err :: rest.2)

def injected : ℕ × List (Injected P) := place read ws.config.maxTokens 0 (ws.injectionOrder order)

def buildContextInjection (display : P → String) : Option String :=
  if ws.entries = [] then none
  else
    let (totalTokens,sections) := ws.injected order read
    if sections.isEmpty then none
    else some ("[Working Set Files]\nThe following " ++ toString ws.entries.length ++
      " file(s) are currently in your working context (~" ++ toString totalTokens ++
      " tokens):\n\n" ++ "\n\n".intercalate (sections.map (Injected.render display)) ++
      "\n\n[End Working Set Files]")

end Operations

variable {P : Type} {read : P → Except String String} {maxTokens total : ℕ}
  {es before after : List (WorkingSetEntry P)} {e : WorkingSetEntry P} {content : String}

/-! ## One file -/

theorem estimateTokens_pos (h : content ≠ "") : 0 < estimateTokens content := by
  have hsize : content.utf8ByteSize ≠ 0 := fun h' => h (String.utf8ByteSize_eq_zero_iff.mp h')
  rw [estimateTokens]
  omega

/-- What is cut off is less than a character. -/
theorem lt_length_takeBytes {n : ℕ} {cs : List Char}
    (h : n < (String.ofList cs).utf8ByteSize) :
    n < (String.ofList (takeBytes n cs)).utf8ByteSize + 4 := by
  induction cs generalizing n with
  | nil => simp at h
  | cons c cs ih =>
    have hcons (l : List Char) : (String.ofList (c :: l)).utf8ByteSize =
        c.utf8Size + (String.ofList l).utf8ByteSize := by
      rw [← List.singleton_append,String.ofList_append,String.utf8ByteSize_append]
      simp
    rw [hcons] at h
    rw [takeBytes]
    split
    · have hrest := ih (n := n - c.utf8Size) (by omega)
      rw [hcons]
      omega
    · have hle := c.utf8Size_le_four
      omega

/-- A file that does not fit takes more than there is left, once it is cut and marked. -/
theorem fitTo_over {remaining : ℕ} (h : remaining < estimateTokens content) :
    remaining < estimateTokens (fitTo remaining content).1 := by
  have hsize : remaining * 4 < content.utf8ByteSize := by
    rw [estimateTokens] at h
    omega
  rw [fitTo,if_pos h]
  simp only [if_pos hsize]
  rw [truncateOnCharBoundary,if_neg (Nat.not_le.mpr hsize),estimateTokens,
    String.utf8ByteSize_append]
  have hlong : remaining * 4 < (String.ofList content.toList).utf8ByteSize := by
    rwa [String.ofList_toList]
  have hlt := lt_length_takeBytes hlong
  have hnote : "...\n[TRUNCATED - file too large]".utf8ByteSize = 32 := by decide +kernel
  omega

theorem fitTo_fits {remaining : ℕ} (h : estimateTokens content ≤ remaining) :
    fitTo remaining content = (content,false) := by
  rw [fitTo,if_neg (Nat.not_lt.mpr h)]

/-! ## The loop -/

/-- The tokens of the files that can be read, none of them cut. -/
def fullTokens (read : P → Except String String) (es : List (WorkingSetEntry P)) : ℕ :=
  (es.map (fun e => match read e.path with
    | .ok content => estimateTokens content
    | .error _ => 0)).sum

/-- A file that fits into what the ones in front of it leave is placed as it is. -/
def Placed (read : P → Except String String) (maxTokens total : ℕ)
    (es before : List (WorkingSetEntry P)) (e : WorkingSetEntry P) : Prop :=
  ∀ content, read e.path = .ok content →
    (place read maxTokens total before).1 + estimateTokens content ≤ maxTokens →
    ∃ rest, (place read maxTokens total es).2 =
      (place read maxTokens total before).2 ++ .file e content false :: rest

/-- No more is placed than there may be, and whatever fits. -/
structure PlacesWhole (read : P → Except String String) (maxTokens total : ℕ)
    (es : List (WorkingSetEntry P)) : Prop where
  budget : (place read maxTokens total es).1 ≤ maxTokens
  unmodified : ∀ before e after, es = before ++ e :: after → Placed read maxTokens total es before e

/-- The files in front either leave room for all of a file, or have used everything up, and it is
not empty. -/
def HasRoom (read : P → Except String String) (maxTokens total : ℕ)
    (before : List (WorkingSetEntry P)) (e : WorkingSetEntry P) : Prop :=
  ∀ content, read e.path = .ok content →
    (total + fullTokens read before < maxTokens →
      total + fullTokens read before + estimateTokens content ≤ maxTokens) ∧
    (maxTokens ≤ total + fullTokens read before → content ≠ "")

def LeavesRoom (read : P → Except String String) (maxTokens total : ℕ)
    (es : List (WorkingSetEntry P)) : Prop :=
  ∀ before e after, es = before ++ e :: after → HasRoom read maxTokens total before e

/-- What holds of every place of a list is shown for its head and for the places in its tail. -/
theorem forall_split_cons {α : Type*} {a : α} {l : List α} {p : List α → α → Prop} :
    (∀ before b after, a :: l = before ++ b :: after → p before b) ↔
      p [] a ∧ ∀ before b after, l = before ++ b :: after → p (a :: before) b := by
  constructor
  · intro h
    refine ⟨h [] a l rfl,fun before b after hl => h (a :: before) b after ?_⟩
    rw [hl,List.cons_append]
  · rintro ⟨hhead,htail⟩ before b after hl
    cases before with
    | nil =>
      obtain ⟨rfl,-⟩ := List.cons.inj hl
      exact hhead
    | cons c before =>
      obtain ⟨rfl,hrest⟩ := List.cons.inj hl
      exact htail before b after hrest

theorem place_total (total : ℕ) (es : List (WorkingSetEntry P)) :
    (place read maxTokens total es).1 =
      total + ((place read maxTokens total es).2.map Injected.tokens).sum := by
  induction es generalizing total with
  | nil => rfl
  | cons e es ih =>
    rw [place]
    split
    · rfl
    · cases read e.path with
      | ok content =>
        simp only [ih,List.map_cons,List.sum_cons,Injected.tokens]
        omega
      | error err =>
        simp only [ih,List.map_cons,List.sum_cons,Injected.tokens]
        omega

theorem place_of_le (h : maxTokens ≤ total) : place read maxTokens total es = (total,[]) := by
  cases es with
  | nil => rfl
  | cons e es => rw [place,if_pos h]

theorem place_of_error {err : String} (h : total < maxTokens) (hread : read e.path = .error err) :
    place read maxTokens total (e :: es) = ((place read maxTokens total es).1,
      .unread e err :: (place read maxTokens total es).2) := by
  rw [place,if_neg (Nat.not_le.mpr h),hread]

theorem place_of_fits (h : total < maxTokens) (hread : read e.path = .ok content)
    (hfits : total + estimateTokens content ≤ maxTokens) :
    place read maxTokens total (e :: es) =
      ((place read maxTokens (total + estimateTokens content) es).1,
        .file e content false :: (place read maxTokens (total + estimateTokens content) es).2) := by
  have hle : estimateTokens content ≤ maxTokens - total := by omega
  rw [place,if_neg (Nat.not_le.mpr h),hread]
  simp only [fitTo_fits hle]

theorem place_of_over (h : total < maxTokens) (hread : read e.path = .ok content)
    (hover : maxTokens < total + estimateTokens content) :
    maxTokens < (place read maxTokens total (e :: es)).1 := by
  have hremaining : maxTokens - total < estimateTokens content := by omega
  have hlt := fitTo_over hremaining
  rw [place,if_neg (Nat.not_le.mpr h),hread]
  simp only [place_total]
  omega

/-! ## When the limit is respected -/

/-- Once everything is used up nothing more is placed. -/
theorem placesWhole_of_full (h : total = maxTokens) :
    PlacesWhole read maxTokens total es ↔ LeavesRoom read maxTokens total es := by
  have hplace (l : List (WorkingSetEntry P)) : place read maxTokens total l = (total,[]) :=
    place_of_le h.ge
  constructor
  · intro hwhole before e after hes content hread
    refine ⟨fun hlt => by omega,?_⟩
    rintro - rfl
    have hfits : (place read maxTokens total before).1 + estimateTokens "" ≤ maxTokens := by
      rw [hplace,h]
      exact Nat.le_refl _
    obtain ⟨rest,hrest⟩ := hwhole.unmodified before e after hes "" hread hfits
    rw [hplace,hplace] at hrest
    cases hrest
  · intro hroom
    refine ⟨by rw [hplace,h],fun before e after hes content hread hfits => ?_⟩
    have hne := (hroom before e after hes content hread).2 (by omega)
    have hpos := estimateTokens_pos hne
    rw [hplace] at hfits
    simp only at hfits
    omega

section Step
variable {total' : ℕ} {x : Injected P}

/-- The first file is passed with so many tokens, and leaves the section behind. -/
theorem placed_cons (hplace : ∀ l, place read maxTokens total (e :: l) =
      ((place read maxTokens total' l).1,x :: (place read maxTokens total' l).2))
    {b : WorkingSetEntry P} : Placed read maxTokens total (e :: es) (e :: before) b ↔
      Placed read maxTokens total' es before b := by
  simp only [Placed,hplace,List.cons_append,List.cons.injEq,true_and]

theorem hasRoom_cons (htotal : total' = total + fullTokens read [e]) {b : WorkingSetEntry P} :
    HasRoom read maxTokens total (e :: before) b ↔ HasRoom read maxTokens total' before b := by
  have hsum : total + fullTokens read (e :: before) = total' + fullTokens read before := by
    rw [htotal]
    simp only [fullTokens,List.map_cons,List.map_nil,List.sum_cons,List.sum_nil]
    omega
  simp only [HasRoom,hsum]

theorem placesWhole_cons (hplace : ∀ l, place read maxTokens total (e :: l) =
      ((place read maxTokens total' l).1,x :: (place read maxTokens total' l).2))
    (hhead : Placed read maxTokens total (e :: es) [] e) :
    PlacesWhole read maxTokens total (e :: es) ↔ PlacesWhole read maxTokens total' es := by
  have hsplit : (∀ before b after, e :: es = before ++ b :: after →
      Placed read maxTokens total (e :: es) before b) ↔
      ∀ before b after, es = before ++ b :: after → Placed read maxTokens total' es before b := by
    rw [forall_split_cons,and_iff_right hhead]
    simp only [placed_cons hplace]
  constructor
  · intro h
    exact ⟨by simpa [hplace] using h.budget,hsplit.mp h.unmodified⟩
  · intro h
    exact ⟨by simpa [hplace] using h.budget,hsplit.mpr h.unmodified⟩

theorem leavesRoom_cons (htotal : total' = total + fullTokens read [e])
    (hhead : HasRoom read maxTokens total [] e) :
    LeavesRoom read maxTokens total (e :: es) ↔ LeavesRoom read maxTokens total' es := by
  rw [LeavesRoom,forall_split_cons,and_iff_right hhead]
  simp only [hasRoom_cons htotal,LeavesRoom]

end Step

theorem placed_nil (hlt : total < maxTokens) (hread : read e.path = .ok content)
    (hfits : total + estimateTokens content ≤ maxTokens) :
    Placed read maxTokens total (e :: es) [] e := by
  intro content' hread' _
  rw [hread] at hread'
  obtain rfl := Except.ok.inj hread'
  rw [place_of_fits hlt hread hfits]
  exact ⟨_,rfl⟩

/-- The first file is the only one that the tokens placed so far have to leave room for. -/
theorem hasRoom_nil (hlt : total < maxTokens) (hread : read e.path = .ok content) :
    HasRoom read maxTokens total [] e ↔ total + estimateTokens content ≤ maxTokens := by
  have hzero : total + fullTokens read [] = total := rfl
  rw [HasRoom,hzero]
  constructor
  · intro h
    exact (h content hread).1 hlt
  · intro h content' hread'
    rw [hread] at hread'
    obtain rfl := Except.ok.inj hread'
    exact ⟨fun _ => h,fun hle => absurd hlt (Nat.not_lt.mpr hle)⟩

theorem placesWhole_iff (h : total ≤ maxTokens) :
    PlacesWhole read maxTokens total es ↔ LeavesRoom read maxTokens total es := by
  induction es generalizing total with
  | nil =>
    have hnone (before : List (WorkingSetEntry P)) (e : WorkingSetEntry P)
        (after : List (WorkingSetEntry P)) : ¬ [] = before ++ e :: after := by simp
    constructor
    · exact fun _ before e after hes => (hnone before e after hes).elim
    · exact fun _ => ⟨h,fun before e after hes => (hnone before e after hes).elim⟩
  | cons e es ih =>
    rcases h.eq_or_lt with hfull | hlt
    · exact placesWhole_of_full hfull
    · cases hread : read e.path with
      | error err =>
        have hvacuous {content : String} (hok : read e.path = .ok content) : False := by
          rw [hread] at hok
          cases hok
        have htotal : total = total + fullTokens read [e] := by simp [fullTokens,hread]
        rw [placesWhole_cons (fun l => place_of_error hlt hread)
            (fun content hok => (hvacuous hok).elim),
          leavesRoom_cons htotal (fun content hok => (hvacuous hok).elim)]
        exact ih h
      | ok content =>
        by_cases hfits : total + estimateTokens content ≤ maxTokens
        · have htotal : total + estimateTokens content = total + fullTokens read [e] := by
            simp [fullTokens,hread]
          rw [placesWhole_cons (fun l => place_of_fits hlt hread hfits)
              (placed_nil hlt hread hfits),
            leavesRoom_cons htotal ((hasRoom_nil hlt hread).mpr hfits)]
          exact ih hfits
        · constructor
          · intro hwhole
            have hover : maxTokens < (place read maxTokens total (e :: es)).1 :=
              place_of_over hlt hread (Nat.lt_of_not_le hfits)
            exact absurd hwhole.budget (Nat.not_le.mpr hover)
          · intro hroom
            exact absurd ((hasRoom_nil hlt hread).mp (hroom [] e es rfl)) hfits

/-! ## The injection -/

theorem place_prefix (total : ℕ) (es : List (WorkingSetEntry P)) :
    (place read maxTokens total es).2.map Injected.entry <+: es := by
  induction es generalizing total with
  | nil => exact List.prefix_refl []
  | cons e es ih =>
    rw [place]
    split
    · exact List.nil_prefix
    · cases read e.path with
      | ok content => exact (List.cons_prefix_cons).mpr ⟨rfl,ih _⟩
      | error err => exact (List.cons_prefix_cons).mpr ⟨rfl,ih _⟩

theorem inFront_iff {a b : WorkingSetEntry P} : inFront a b = true ↔
    (b.pinned = true → a.pinned = true) ∧
      (a.pinned = b.pinned → b.lastAccessTurn ≤ a.lastAccessTurn) := by
  rw [inFront]
  cases a.pinned <;> cases b.pinned <;> simp

theorem injectionOrder_pairwise (ws : WorkingSet P) (order : Order P) :
    (ws.injectionOrder order).Pairwise (fun a b => inFront a b = true) := by
  refine List.pairwise_mergeSort ?_ ?_ _
  · intro a b c hab hbc
    rw [inFront_iff] at hab hbc ⊢
    refine ⟨fun hc => hab.1 (hbc.1 hc),fun hac => ?_⟩
    have hb : a.pinned = b.pinned := by
      rw [Bool.eq_iff_iff]
      exact ⟨fun ha => hbc.1 (hac ▸ ha),hab.1⟩
    exact (hbc.2 (hb.symm.trans hac)).trans (hab.2 hb)
  · intro a b
    rw [Bool.or_eq_true,inFront_iff,inFront_iff]
    rcases Nat.le_total a.lastAccessTurn b.lastAccessTurn with hle | hle
    · cases a.pinned <;> cases b.pinned <;> simp [hle]
    · cases a.pinned <;> cases b.pinned <;> simp [hle]

/-- The contents take no more tokens than there may be, pinned files stand first, and a file that
fits into what is left for it is placed as it is. -/
structure RespectsLimit (ws : WorkingSet P) (order : Order P) (read : P → Except String String) :
    Prop where
  budget : ((ws.injected order read).2.map Injected.tokens).sum ≤ ws.config.maxTokens
  pinnedFirst : ((ws.injected order read).2.map Injected.entry).Pairwise
    (fun a b => b.pinned = true → a.pinned = true)
  unmodified : ∀ before e after, ws.injectionOrder order = before ++ e :: after →
    Placed read ws.config.maxTokens 0 (ws.injectionOrder order) before e

/-- The limit is respected exactly if no file that can be read crosses it, and none that is empty
comes after it is used up. -/
theorem respectsLimit_iff (ws : WorkingSet P) (order : Order P)
    (read : P → Except String String) : ws.RespectsLimit order read ↔
      LeavesRoom read ws.config.maxTokens 0 (ws.injectionOrder order) := by
  have htotal := @place_total P read ws.config.maxTokens 0 (ws.injectionOrder order)
  rw [Nat.zero_add] at htotal
  rw [← placesWhole_iff (Nat.zero_le _)]
  constructor
  · intro h
    exact ⟨htotal.trans_le h.budget,h.unmodified⟩
  · intro h
    have hpre : (place read ws.config.maxTokens 0 (ws.injectionOrder order)).2.map
        Injected.entry <+: ws.injectionOrder order := place_prefix 0 _
    have hsorted := (injectionOrder_pairwise ws order).sublist hpre.sublist
    exact ⟨htotal.symm.trans_le h.budget,hsorted.imp (fun h => (inFront_iff.mp h).1),h.unmodified⟩

theorem injectionOrder_ne_nil {ws : WorkingSet P} (h : ws.entries ≠ []) (order : Order P) :
    ws.injectionOrder order ≠ [] := by
  have hlen : (ws.injectionOrder order).length = ws.entries.length := by
    rw [injectionOrder,List.length_mergeSort,List.length_map,(order.perm ws.entries).length_eq]
  intro hnil
  rw [hnil] at hlen
  exact h (List.length_eq_zero_iff.mp hlen.symm)

theorem place_ne_nil (h : total < maxTokens) (hes : es ≠ []) :
    (place read maxTokens total es).2 ≠ [] := by
  cases es with
  | nil => exact absurd rfl hes
  | cons e es =>
    rw [place,if_neg (Nat.not_le.mpr h)]
    cases read e.path with
    | ok content => exact List.cons_ne_nil _ _
    | error err => exact List.cons_ne_nil _ _

/-- There is nothing to inject exactly if there are no files, or no tokens for them. -/
theorem buildContextInjection_eq_none_iff (ws : WorkingSet P) (order : Order P)
    (read : P → Except String String) (display : P → String) :
    ws.buildContextInjection order read display = none ↔
      ws.entries = [] ∨ ws.config.maxTokens = 0 := by
  rw [buildContextInjection]
  by_cases hentries : ws.entries = []
  · rw [if_pos hentries]
    exact iff_of_true rfl (.inl hentries)
  · rw [if_neg hentries,or_iff_right hentries,injected]
    rcases Nat.eq_zero_or_pos ws.config.maxTokens with hzero | hpos
    · rw [place_of_le (Nat.le_of_eq hzero)]
      exact iff_of_true rfl hzero
    · have hne : (place read ws.config.maxTokens 0 (ws.injectionOrder order)).2 ≠ [] :=
        place_ne_nil hpos (injectionOrder_ne_nil hentries order)
      have hempty : (place read ws.config.maxTokens 0 (ws.injectionOrder order)).2.isEmpty = false :=
        List.isEmpty_eq_false_iff.mpr hne
      simp only [hempty]
      exact iff_of_false (Option.some_ne_none _) (Nat.ne_of_gt hpos)

/-- A working set of one file, whose content may take ten tokens. -/
def oneFile : WorkingSet String :=
  (withConfig { maxTokens := 10 }).add id "/src/main.rs" 25 listed

/-- A file of twenty-five tokens is cut to ten, and is eighteen with the note. -/
theorem largeFile_over : ¬ oneFile.RespectsLimit listed
    (fun _ => .ok (String.ofList (List.replicate 100 'a'))) := by
  intro h
  exact absurd h.budget (by decide +kernel)

end WorkingSet
end Rullama.Types
