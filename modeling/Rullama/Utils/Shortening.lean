import Rullama.Agent.QueueFailures
import Rullama.Agent.Stream
import Rullama.Tools.Settings
import Rullama.Tui.JournalTree
import Rullama.Tui.NanoEditor
import Rullama.Utils.Conversation

/-! # Shortening texts

The places on the way of a message that show a long text by its beginning. Some of them back up to
a character boundary, the others cut at a fixed byte and panic inside a character.
-/
namespace Rullama.Shortening
open Text Conversation

/-- `&text[..n]`; none where it panics. -/
def sliceTo (text : String) (n : ℕ) : Option String :=
  (splitBytes text.toList n).map (fun p => .ofList p.1)

/-- A text that is longer than the limit is cut, and followed by an ellipsis. -/
def ellipsized (limit cut : ℕ) (ellipsis text : String) : Option String :=
  if text.utf8ByteSize > limit then (sliceTo text cut).map (· ++ ellipsis) else some text

/-! ## The places -/

/-- The text in the log of `QueueMessage`. Where the log is off nothing is cut. -/
def queuedLog (logs : Bool) (content : String) : Option String :=
  if logs then sliceTo content (min content.utf8ByteSize 50) else some content

/-- The text in the log of a continuation. -/
def continuationPreview (logs : Bool) (continuationText : String) : Option String :=
  if logs then ellipsized 100 100 "..." continuationText else some continuationText

/-- `ContextBuilder::truncate_content` -/
def truncateContent (content : String) (maxChars : ℕ) : Option String :=
  if content.utf8ByteSize ≤ maxChars then some content
  else do
    let head ← sliceTo content maxChars
    let truncateAt := ((Tools.beforeLast ' ' head.toList).map byteLength).getD maxChars
    (sliceTo content truncateAt).map (· ++ "...")

/-- The text that the title is made of: that of the first message of the user, in its first block
with a text. -/
def titleText {Block : Type} (blockText : Block → Option String) (messages : List (Message Block)) :
    Option String :=
  (messages.find? (·.role = .user)).map (fun message =>
    match message.content with
    | .text text => text
    | .blocks blocks => (blocks.findSome? blockText).getD "New Conversation")

def generateTitle {Block : Type} (blockText : Block → Option String)
    (messages : List (Message Block)) : Option String :=
  match titleText blockText messages with
  | some text => ellipsized 50 50 "..." text
  | none => some "New Conversation"

def firstLine (content : String) : String :=
  Tools.trim (.ofList ((Nano.linesOf content.toList).headD []))

def summaryText (node : Tui.JournalNode) : Option String :=
  match node.payload with
  | .turn turnNumber => some ("Turn " ++ toString turnNumber)
  | .message _ content =>
    let line := firstLine content
    if line.utf8ByteSize > 60 then (sliceTo line 57).map (· ++ "…")
    else if line.isEmpty then some "(empty)"
    else some line
  | .tool toolName paramsSummary _ _ _ => some (toolName ++ " " ++ paramsSummary)
  | .subAgentSpawn _ taskDesc => some ("⚡ " ++ taskDesc)
  | .systemEvent description => ellipsized 60 57 "…" (firstLine description)

/-- One of the places, with what it is given. -/
inductive Place (Block : Type) where
  | queuedLog (logs : Bool) (content : String)
  | continuationPreview (logs : Bool) (continuationText : String)
  | truncateContent (content : String) (maxChars : ℕ)
  | generateTitle (blockText : Block → Option String) (messages : List (Message Block))
  | summaryText (node : Tui.JournalNode)
  | truncatedOutput (content : String)
  | shownOutput (output : String)

namespace Place
variable {Block : Type}

def shown : Place Block → Option String
  | queuedLog logs content => Shortening.queuedLog logs content
  | continuationPreview logs text => Shortening.continuationPreview logs text
  | truncateContent content maxChars => Shortening.truncateContent content maxChars
  | generateTitle blockText messages => Shortening.generateTitle blockText messages
  | summaryText node => Shortening.summaryText node
  | truncatedOutput content => some (Agent.truncatedOutput content)
  | shownOutput output => some (Agent.shownOutput output)

/-- The text that may be shortened, the limit that it is shortened above, and what follows it
then. -/
def input : Place Block → Option (String × ℕ × String)
  | queuedLog logs content => if logs then some (content,50,"") else none
  | continuationPreview logs text => if logs then some (text,100,"...") else none
  | truncateContent content maxChars => some (content,maxChars,"...")
  | generateTitle blockText messages => (titleText blockText messages).map (·,50,"...")
  | summaryText node =>
    match node.payload with
    | .message _ content => some (firstLine content,60,"…")
    | .systemEvent description => some (firstLine description,60,"…")
    | _ => none
  | truncatedOutput content => some (content,Agent.MAX_TOOL_OUTPUT_CHARS,
      "\n\n[Output truncated: " ++ toString Agent.MAX_TOOL_OUTPUT_CHARS ++ " of " ++
        toString content.utf8ByteSize ++ " characters]")
  | shownOutput output => some (output,200,"...")

/-- It completes, and of a text above the limit it keeps a beginning within the limit, which as a
list of characters cuts none. -/
def Safe (place : Place Block) : Prop :=
  ∃ shown, place.shown = some shown ∧
    ∀ text limit ellipsis, place.input = some (text,limit,ellipsis) →
    limit < text.utf8ByteSize → ∃ kept, shown = kept ++ ellipsis ∧ kept.toList <+: text.toList ∧
      kept.utf8ByteSize ≤ limit

/-- A text within the limit, or one with a character boundary at the cut. -/
def Cuttable (limit cut : ℕ) (text : String) : Prop :=
  text.utf8ByteSize ≤ limit ∨ Boundary text.toList cut

instance (limit cut : ℕ) (text : String) : Decidable (Cuttable limit cut text) :=
  inferInstanceAs (Decidable (_ ∨ _))

def Fits : Place Block → Prop
  | queuedLog logs content => logs = true → Cuttable 50 50 content
  | continuationPreview logs text => logs = true → Cuttable 100 100 text
  | truncateContent content maxChars => Cuttable maxChars maxChars content
  | generateTitle blockText messages => ∀ text ∈ titleText blockText messages, Cuttable 50 50 text
  | summaryText node =>
    match node.payload with
    | .message _ content => Cuttable 60 57 (firstLine content)
    | .systemEvent description => Cuttable 60 57 (firstLine description)
    | _ => True
  | truncatedOutput _ => True
  | shownOutput _ => True

end Place

/-! ## Slices -/

variable {text kept content ellipsis : String} {n limit cut maxChars : ℕ}

theorem utf8ByteSize_eq (text : String) : text.utf8ByteSize = byteLength text.toList := by
  have hlist (cs : List Char) : (String.ofList cs).utf8ByteSize = byteLength cs := by
    induction cs with
    | nil => rfl
    | cons c cs ih =>
      have hcons : String.ofList (c :: cs) = String.singleton c ++ String.ofList cs := by
        rw [← String.toList_inj]
        simp
      rw [hcons,String.utf8ByteSize_append,String.utf8ByteSize_singleton,ih,byteLength_cons]
  rw [← hlist,String.ofList_toList]

theorem sliceTo_eq_some : sliceTo text n = some kept ↔
    (∃ rest, text.toList = kept.toList ++ rest) ∧ byteLength kept.toList = n := by
  rw [sliceTo,Option.map_eq_some_iff]
  constructor
  · rintro ⟨⟨a,b⟩,h,rfl⟩
    obtain ⟨heq,hn⟩ := splitBytes_eq_some.mp h
    rw [String.toList_ofList]
    exact ⟨⟨b,heq⟩,hn⟩
  · rintro ⟨⟨rest,heq⟩,hn⟩
    exact ⟨(kept.toList,rest),splitBytes_eq_some.mpr ⟨heq,hn⟩,String.ofList_toList⟩

theorem exists_sliceTo_iff : (∃ kept, sliceTo text n = some kept) ↔ Boundary text.toList n := by
  rw [boundary_iff]
  constructor
  · rintro ⟨kept,h⟩
    obtain ⟨p,hp,-⟩ := Option.map_eq_some_iff.mp h
    exact ⟨p,hp⟩
  · rintro ⟨p,hp⟩
    exact ⟨_,Option.map_eq_some_iff.mpr ⟨p,hp,rfl⟩⟩

/-- What a slice keeps is a beginning of so many bytes. -/
theorem sliceTo_keeps (h : sliceTo text n = some kept) :
    kept.toList <+: text.toList ∧ kept.utf8ByteSize = n := by
  obtain ⟨⟨rest,heq⟩,hn⟩ := sliceTo_eq_some.mp h
  rw [utf8ByteSize_eq]
  exact ⟨⟨rest,heq.symm⟩,hn⟩

/-- A shortened text begins with what is kept of it. -/
def Keeps (limit : ℕ) (ellipsis text shown : String) : Prop :=
  limit < text.utf8ByteSize → ∃ kept, shown = kept ++ ellipsis ∧ kept.toList <+: text.toList ∧
    kept.utf8ByteSize ≤ limit

theorem Keeps.of_slice (h : sliceTo text n = some kept) (hn : n ≤ limit) :
    Keeps limit ellipsis text (kept ++ ellipsis) := by
  obtain ⟨hpre,hsize⟩ := sliceTo_keeps h
  exact fun _ => ⟨kept,rfl,hpre,hsize.trans_le hn⟩

theorem Keeps.of_le (h : text.utf8ByteSize ≤ limit) (shown : String) :
    Keeps limit ellipsis text shown := fun hlt => absurd hlt (Nat.not_lt.mpr h)

theorem ellipsized_iff (hcut : cut ≤ limit) :
    (∃ shown, ellipsized limit cut ellipsis text = some shown ∧ Keeps limit ellipsis text shown) ↔
      Place.Cuttable limit cut text := by
  rw [Place.Cuttable,ellipsized]
  by_cases hlong : text.utf8ByteSize > limit
  · rw [if_pos hlong,or_iff_right (Nat.not_le.mpr hlong),← exists_sliceTo_iff]
    constructor
    · rintro ⟨shown,h,-⟩
      obtain ⟨kept,hkept,-⟩ := Option.map_eq_some_iff.mp h
      exact ⟨kept,hkept⟩
    · rintro ⟨kept,hkept⟩
      exact ⟨_,Option.map_eq_some_iff.mpr ⟨kept,hkept,rfl⟩,.of_slice hkept hcut⟩
  · rw [if_neg hlong]
    have hle := Nat.not_lt.mp hlong
    exact iff_of_true ⟨text,rfl,.of_le hle text⟩ (.inl hle)

/-! ## Words -/

theorem exists_of_beforeLast {c : Char} {cs before : List Char}
    (h : Tools.beforeLast c cs = some before) : ∃ rest, cs = before ++ c :: rest := by
  induction cs generalizing before with
  | nil => cases h
  | cons d ds ih =>
    rw [Tools.beforeLast] at h
    split at h
    · rename_i later hlater
      obtain ⟨rest,rfl⟩ := ih hlater
      cases h
      exact ⟨rest,rfl⟩
    · split at h
      · rename_i hd
        cases h
        exact ⟨ds,by rw [hd]; rfl⟩
      · cases h

/-- The cut at a space never lies inside a character. -/
theorem truncateContent_iff :
    (∃ shown, truncateContent content maxChars = some shown ∧ Keeps maxChars "..." content shown) ↔
      Place.Cuttable maxChars maxChars content := by
  rw [Place.Cuttable,truncateContent]
  by_cases hshort : content.utf8ByteSize ≤ maxChars
  · rw [if_pos hshort]
    exact iff_of_true ⟨content,rfl,.of_le hshort content⟩ (.inl hshort)
  · rw [if_neg hshort,or_iff_right hshort,← exists_sliceTo_iff]
    constructor
    · rintro ⟨shown,h,-⟩
      obtain ⟨head,hhead,-⟩ := Option.bind_eq_some_iff.mp h
      exact ⟨head,hhead⟩
    · rintro ⟨head,hhead⟩
      obtain ⟨⟨rest,heq⟩,hsize⟩ := sliceTo_eq_some.mp hhead
      have hkept : ∃ n ≤ maxChars,
          n = ((Tools.beforeLast ' ' head.toList).map byteLength).getD maxChars ∧
          ∃ kept, sliceTo content n = some kept := by
        cases hbefore : Tools.beforeLast ' ' head.toList with
        | none => exact ⟨maxChars,Nat.le_refl _,rfl,head,hhead⟩
        | some before =>
          obtain ⟨word,hword⟩ := exists_of_beforeLast hbefore
          refine ⟨byteLength before,?_,rfl,exists_sliceTo_iff.mpr ?_⟩
          · rw [← hsize,hword,byteLength_append]
            exact Nat.le_add_right _ _
          · rw [heq,hword,List.append_assoc]
            exact boundary_append _ _
      obtain ⟨n,hn,hat,kept,hkept⟩ := hkept
      refine ⟨kept ++ "...",Option.bind_eq_some_iff.mpr ⟨head,hhead,?_⟩,.of_slice hkept hn⟩
      rw [← hat]
      exact Option.map_eq_some_iff.mpr ⟨kept,hkept,rfl⟩

theorem exists_truncateContent_iff : (∃ shown, truncateContent content maxChars = some shown) ↔
    Place.Cuttable maxChars maxChars content := by
  constructor
  · rintro ⟨shown,h⟩
    by_cases hshort : content.utf8ByteSize ≤ maxChars
    · exact .inl hshort
    · rw [truncateContent,if_neg hshort] at h
      obtain ⟨head,hhead,-⟩ := Option.bind_eq_some_iff.mp h
      exact .inr (exists_sliceTo_iff.mp ⟨head,hhead⟩)
  · intro h
    obtain ⟨shown,hshown,-⟩ := truncateContent_iff.mpr h
    exact ⟨shown,hshown⟩

/-! ## Outputs of tools -/

theorem takeBytes_keeps (max : ℕ) (cs : List Char) :
    Agent.takeBytes max cs <+: cs ∧ byteLength (Agent.takeBytes max cs) ≤ max := by
  induction cs generalizing max with
  | nil => exact ⟨List.nil_prefix,Nat.zero_le _⟩
  | cons c cs ih =>
    rw [Agent.takeBytes]
    split
    · rename_i hc
      obtain ⟨hpre,hsize⟩ := ih (max - c.utf8Size)
      refine ⟨List.cons_prefix_cons.mpr ⟨rfl,hpre⟩,?_⟩
      rw [byteLength_cons]
      omega
    · exact ⟨List.nil_prefix,Nat.zero_le _⟩

theorem truncateOnCharBoundary_keeps (h : n < text.utf8ByteSize) :
    (Agent.truncateOnCharBoundary text n).toList <+: text.toList ∧
      (Agent.truncateOnCharBoundary text n).utf8ByteSize ≤ n := by
  obtain ⟨hpre,hsize⟩ := takeBytes_keeps n text.toList
  rw [Agent.truncateOnCharBoundary,if_neg (Nat.not_le.mpr h),utf8ByteSize_eq,String.toList_ofList]
  exact ⟨hpre,hsize⟩

/-! ## All places -/

namespace Place
variable {Block : Type} {place : Place Block}

theorem safe_of_input (h : place.input = some (text,limit,ellipsis)) :
    place.Safe ↔ ∃ shown, place.shown = some shown ∧ Keeps limit ellipsis text shown := by
  refine exists_congr (fun shown => and_congr_right (fun _ => ?_))
  rw [h]
  constructor
  · intro hall
    exact hall text limit ellipsis rfl
  · rintro hkeeps _ _ _ heq
    cases heq
    exact hkeeps

theorem safe_of_no_input (h : place.input = none) : place.Safe ↔ place.shown.isSome = true := by
  rw [Option.isSome_iff_exists]
  refine exists_congr (fun shown => and_iff_left ?_)
  intro text limit ellipsis heq
  rw [h] at heq
  cases heq

theorem queuedLog_iff (logs : Bool) (content : String) :
    (queuedLog logs content : Place Block).Safe ↔ (logs = true → Cuttable 50 50 content) := by
  cases logs with
  | false =>
    rw [safe_of_no_input rfl]
    exact iff_of_true rfl (fun h => by cases h)
  | true =>
    have hinput : (queuedLog true content : Place Block).input = some (content,50,"") := rfl
    rw [safe_of_input hinput,forall_prop_of_true rfl]
    simp only [shown,Shortening.queuedLog,if_true,Cuttable]
    by_cases hle : content.utf8ByteSize ≤ 50
    · rw [Nat.min_eq_left hle]
      have hslice : ∃ kept, sliceTo content content.utf8ByteSize = some kept := by
        rw [exists_sliceTo_iff,utf8ByteSize_eq]
        exact boundary_byteLength _
      obtain ⟨kept,hkept⟩ := hslice
      exact iff_of_true ⟨kept,hkept,.of_le hle kept⟩ (.inl hle)
    · rw [Nat.min_eq_right (Nat.le_of_not_le hle),or_iff_right hle,← exists_sliceTo_iff]
      refine exists_congr (fun kept => and_iff_left_of_imp (fun hkept => ?_))
      have hkeeps : Keeps 50 "" content (kept ++ "") := .of_slice hkept (Nat.le_refl 50)
      rwa [String.append_empty] at hkeeps

theorem continuationPreview_iff (logs : Bool) (continuationText : String) :
    (continuationPreview logs continuationText : Place Block).Safe ↔
      (logs = true → Cuttable 100 100 continuationText) := by
  cases logs with
  | false =>
    rw [safe_of_no_input rfl]
    exact iff_of_true rfl (fun h => by cases h)
  | true =>
    have hinput : (continuationPreview true continuationText : Place Block).input =
        some (continuationText,100,"...") := rfl
    rw [safe_of_input hinput,forall_prop_of_true rfl]
    exact ellipsized_iff (Nat.le_refl 100)

theorem generateTitle_iff (blockText : Block → Option String) (messages : List (Message Block)) :
    (generateTitle blockText messages).Safe ↔
      ∀ text ∈ titleText blockText messages, Cuttable 50 50 text := by
  cases htext : titleText blockText messages with
  | none =>
    have hinput : (generateTitle blockText messages).input = none := by rw [input,htext]; rfl
    rw [safe_of_no_input hinput,shown,Shortening.generateTitle,htext]
    exact iff_of_true rfl (fun text h => by cases h)
  | some text =>
    have hinput : (generateTitle blockText messages).input = some (text,50,"...") := by
      rw [input,htext]
      rfl
    rw [safe_of_input hinput,shown,Shortening.generateTitle,htext]
    simp only [Option.mem_some_iff,forall_eq']
    exact ellipsized_iff (Nat.le_refl 50)

/-- The line of a message is shown like that of an event, but for an empty one. -/
theorem messageLine_iff (line : String) :
    (∃ shown, (if line.utf8ByteSize > 60 then (sliceTo line 57).map (· ++ "…")
      else if line.isEmpty then some "(empty)" else some line) = some shown ∧
      Keeps 60 "…" line shown) ↔ Cuttable 60 57 line := by
  have hshown : (∃ shown, ellipsized 60 57 "…" line = some shown ∧ Keeps 60 "…" line shown) ↔
      Cuttable 60 57 line := ellipsized_iff (by decide)
  rw [← hshown,ellipsized]
  by_cases hlong : line.utf8ByteSize > 60
  · rw [if_pos hlong,if_pos hlong]
  · have hle := Nat.not_lt.mp hlong
    rw [if_neg hlong,if_neg hlong]
    refine iff_of_true ?_ ⟨line,rfl,.of_le hle line⟩
    split
    · exact ⟨_,rfl,.of_le hle _⟩
    · exact ⟨_,rfl,.of_le hle _⟩

theorem summaryText_iff (node : Tui.JournalNode) :
    (summaryText node : Place Block).Safe ↔ (summaryText node : Place Block).Fits := by
  have hnone (h : (summaryText node : Place Block).input = none)
      (hshown : (Shortening.summaryText node).isSome = true) :
      (summaryText node : Place Block).Safe ↔ True := by
    rw [safe_of_no_input h]
    exact iff_true_intro hshown
  cases hpayload : node.payload with
  | message role content =>
    have hinput : (summaryText node : Place Block).input = some (firstLine content,60,"…") := by
      simp only [input,hpayload]
    rw [safe_of_input hinput]
    simp only [Fits,shown,Shortening.summaryText,hpayload]
    exact messageLine_iff (firstLine content)
  | systemEvent description =>
    have hinput : (summaryText node : Place Block).input = some (firstLine description,60,"…") := by
      simp only [input,hpayload]
    rw [safe_of_input hinput]
    simp only [Fits,shown,Shortening.summaryText,hpayload]
    exact ellipsized_iff (by decide)
  | turn turnNumber =>
    rw [hnone (by simp only [input,hpayload]) (by simp [Shortening.summaryText,hpayload])]
    simp only [Fits,hpayload]
  | tool toolName paramsSummary resultSummary success durationMs =>
    rw [hnone (by simp only [input,hpayload]) (by simp [Shortening.summaryText,hpayload])]
    simp only [Fits,hpayload]
  | subAgentSpawn agentId taskDesc =>
    rw [hnone (by simp only [input,hpayload]) (by simp [Shortening.summaryText,hpayload])]
    simp only [Fits,hpayload]

/-- An output is cut where a character ends. -/
theorem output_safe (h : place.input = some (text,limit,ellipsis))
    (hshown : place.shown = some (if text.utf8ByteSize > limit then
      Agent.truncateOnCharBoundary text limit ++ ellipsis else text)) : place.Safe := by
  rw [safe_of_input h]
  refine ⟨_,hshown,fun hlt => ?_⟩
  rw [if_pos hlt]
  exact ⟨_,rfl,truncateOnCharBoundary_keeps hlt⟩

/-- Every place completes, and keeps a beginning of the text that ends between two characters,
exactly when its text is short or can be cut at its fixed byte. The outputs of tools always can. -/
theorem safe_iff_fits {Block : Type} (place : Place Block) : place.Safe ↔ place.Fits := by
  cases place with
  | queuedLog logs content => exact queuedLog_iff logs content
  | continuationPreview logs text => exact continuationPreview_iff logs text
  | truncateContent content maxChars =>
    have hinput : (truncateContent content maxChars : Place Block).input =
        some (content,maxChars,"...") := rfl
    rw [safe_of_input hinput]
    exact truncateContent_iff
  | generateTitle blockText messages => exact generateTitle_iff blockText messages
  | summaryText node => exact summaryText_iff node
  | truncatedOutput content =>
    refine iff_of_true (output_safe rfl ?_) trivial
    rw [shown,Agent.truncatedOutput]
    simp only [String.append_assoc]
  | shownOutput output => exact iff_of_true (output_safe rfl rfl) trivial

/-- 51 bytes, of which the last two are one character. -/
def longName : String := .ofList ('a' :: List.replicate 25 (Char.ofNat 233))

/-- The title of a message with this text cannot be made. -/
theorem longName_no_title : ¬ ∀ (Block : Type) (place : Place Block), place.Safe := by
  intro h
  obtain ⟨shown,hshown,-⟩ := h Unit (generateTitle (fun _ => none) [⟨.user,.text longName⟩])
  have hpanic : (generateTitle (fun _ => none) [⟨.user,.text longName⟩] : Place Unit).shown =
      none := by
    decide +kernel
  rw [hpanic] at hshown
  cases hshown

end Place
end Rullama.Shortening
