import Rullama.Numbers.Floats
import Rullama.Utils.RetrievalGate
import Rullama.Utils.Shortening

/-! # Contexts with knowledge

Before a call the messages are enhanced with personal knowledge, resolved entities, behavioral
knowledge and what a search in the conversation finds. What the knowledge coordinator and the
search answer is a parameter. Every entry of the context has a ghost that tells where it is from.
-/
namespace Rullama.Utils

open Rullama.Conversation Rullama.Numbers Rullama.Shortening
open Rullama.Tools (contains)

/-- `Vec::insert`; none where it panics. -/
def insertAt {α : Type} (i : ℕ) (x : α) (l : List α) : Option (List α) :=
  if i ≤ l.length then some (l.take i ++ x :: l.drop i) else none

/-! ## Formats -/

/-- `{:.0}` -/
def formatWhole : Extended → String
  | .nan => "NaN"
  | .posInf => "inf"
  | .negInf => "-inf"
  | .fin q => if q < 0 ∧ roundHalfEven q = 0 then "-0" else toString (roundHalfEven q)

/-- A product of single precision without its fraction. -/
def percent (x : Extended) : String := formatWhole ((x.mul 100).round 24 128)

structure ResolvedReference where
  referenceText : String
  antecedent : String
  confidence : Extended

structure SealProcessingResult where
  resolutions : List ResolvedReference
  resolvedQuery : String
  qualityScore : Extended

/-- `rullama_seal::SealKnowledgeCoordinator` -/
structure Coordinator where
  getPksContext : SealProcessingResult → Except String (Option String)
  getBksContext : String → Except String (Option String)
  minSealQualityForBksBoost : Extended
  adjustRetrievalThreshold : Extended → Extended → Extended

def formatEntityResolutions (resolutions : List ResolvedReference) : String :=
  let parts := (resolutions.filter (fun r => Extended.le (.fin (1/2)) r.confidence)).map (fun r =>
    "- \"" ++ r.referenceText ++ "\" → " ++ r.antecedent ++ " (" ++ percent r.confidence ++
      "% confidence)")
  "\n".intercalate
    (["[Entity Context]","Resolved references from current query:"] ++ parts ++ [""])

/-- One line of the retrieved context; none where the text is cut inside a character. -/
def formatRetrieved (item : MessageMetadata × Extended) : Option String :=
  (truncateContent item.1.content 500).map (fun truncated =>
    "- [" ++ item.1.role ++ "] (relevance: " ++ percent item.2 ++ "%): " ++ truncated)

def formatInjection (results : List (MessageMetadata × Extended)) : Option String :=
  (results.mapM formatRetrieved).map (fun lines => "\n".intercalate
    (["[Retrieved Context]",
      "The following information was retrieved from earlier in this conversation:",""] ++ lines ++
      ["","[End Retrieved Context]"]))

/-! ## The context -/

inductive Origin where
  | pks
  | entity
  | bks
  | retrieved
  | original (place : ℕ)
  deriving DecidableEq

structure Entry (Block : Type) where
  message : Message Block
  origin : Origin

variable {Block : Type}

/-- What a call gives to the context builder, with what the search in the message store answers. -/
structure Request (Block : Type) where
  messages : List (Message Block)
  userQuery : String
  sealResult : Option SealProcessingResult
  coordinator : Option Coordinator
  conversationId : String
  searchConversation :
    String → String → ℕ → Extended → Except String (List (MessageMetadata × Extended))

/-- A system message that is inserted. -/
def Entry.system (origin : Origin) (text : String) : Entry Block := ⟨⟨.system,.text text⟩,origin⟩

def injectionMarks : List String := ["[Compacted Context]","Summary of earlier"]

/-- After the summary, or after the leading system messages. -/
def findInjectionPoint (messages : List (Message Block)) : ℕ :=
  match messages.findIdx? (isMarked injectionMarks) with
  | some i => i + 1
  | none => (messages.takeWhile (·.role = .system)).length

section Build
variable (config : ContextBuilderConfig) (req : Request Block)

def pksContext : Option String :=
  if config.enablePersonalKnowledge then
    match req.coordinator,req.sealResult with
    | some coordinator,some sealRes => (coordinator.getPksContext sealRes).toOption.join
    | _,_ => none
  else none

def entityContext : Option String :=
  if config.injectEntityContext then
    match req.sealResult with
    | some sealRes =>
      if sealRes.resolutions.isEmpty then none
      else some (formatEntityResolutions sealRes.resolutions)
    | none => none
  else none

def bksContext : Option String :=
  match req.coordinator,req.sealResult with
  | some coordinator,some sealRes =>
    if coordinator.minSealQualityForBksBoost.le sealRes.qualityScore then
      (coordinator.getBksContext req.userQuery).toOption.join
    else none
  | _,_ => none

def entityPosition : ℕ :=
  if config.enablePersonalKnowledge && req.coordinator.isSome then 1 else 0

def bksPosition : ℕ :=
  if config.enablePersonalKnowledge then if config.injectEntityContext then 2 else 1
  else if config.injectEntityContext then 1 else 0

/-- Inserts a part that there is. -/
def inject (position : ℕ) (origin : Origin) (context : Option String)
    (entries : List (Entry Block)) : Option (List (Entry Block)) :=
  match context with
  | some text => insertAt position (.system origin text) entries
  | none => some entries

def originals : List (Entry Block) :=
  req.messages.zipIdx.map (fun (message,place) => ⟨message,.original place⟩)

/-- The messages with the knowledge. -/
def enhancedMessages : Option (List (Entry Block)) := do
  let entries ← inject 0 .pks (pksContext config req) (originals req)
  let entries ← inject (entityPosition config req) .entity (entityContext config req) entries
  inject (bksPosition config) .bks (bksContext req) entries

def searchQuery : String :=
  if config.useResolvedQuery then
    match req.sealResult with
    | some sealRes => sealRes.resolvedQuery
    | none => req.userQuery
  else req.userQuery

def retrievalThreshold : Extended :=
  match req.sealResult with
  | some sealRes =>
    if config.qualityAwareThreshold && Extended.lt 0 sealRes.qualityScore then
      match req.coordinator with
      | some c => c.adjustRetrievalThreshold config.injectionThreshold sealRes.qualityScore
      | none => config.injectionThreshold
    else config.injectionThreshold
  | none => config.injectionThreshold

def relevantItems : Except String (List (MessageMetadata × Extended)) :=
  match req.searchConversation req.conversationId (searchQuery config req)
      (config.maxInjectItems + 2) (.fin (1/2)) with
  | .error e => .error e
  | .ok results => .ok ((results.filter
      (fun item => (retrievalThreshold config req).le item.2)).take config.maxInjectItems)

/-- The step that searches; none where it panics. -/
def injectRetrieved (entries : List (Entry Block)) :
    Option (Except String (List (Entry Block))) :=
  match relevantItems config req with
  | .error e => some (.error e)
  | .ok relevant =>
    if relevant.isEmpty then some (.ok entries)
    else (formatInjection relevant).bind (fun injection =>
      (insertAt (findInjectionPoint (entries.map (·.message))) (.system .retrieved injection)
        entries).map .ok)

def buildContextWithSealAndKnowledge (toLowercase : String → String) :
    Option (Except String (List (Entry Block))) :=
  (enhancedMessages config req).bind (fun entries =>
    if shouldRetrieve toLowercase config (searchQuery config req) (entries.map (·.message)) then
      injectRetrieved config req entries
    else some (.ok entries))

end Build

/-! ## Insertions -/

section Insertions
variable {α : Type} {i : ℕ} {x : α} {l p out : List α}

theorem insertAt_length (p l : List α) (x : α) :
    insertAt p.length x (p ++ l) = some (p ++ x :: l) := by
  have hle : p.length ≤ (p ++ l).length := by
    rw [List.length_append]
    omega
  rw [insertAt,if_pos hle,List.take_left,List.drop_left]

theorem insertAt_zero (l : List α) (x : α) : insertAt 0 x l = some (x :: l) :=
  insertAt_length [] l x

theorem insertAt_perm (h : insertAt i x l = some out) : out.Perm (x :: l) := by
  unfold insertAt at h
  split at h
  · obtain rfl := Option.some.inj h
    have hmiddle : (l.take i ++ x :: l.drop i).Perm (x :: (l.take i ++ l.drop i)) :=
      List.perm_middle
    rwa [List.take_append_drop] at hmiddle
  · cases h

theorem insertAt_filter {f : α → Bool} (hx : f x = false) (h : insertAt i x l = some out) :
    out.filter f = l.filter f := by
  unfold insertAt at h
  split at h
  · obtain rfl := Option.some.inj h
    rw [List.filter_append,List.filter_cons_of_neg (ne_true_of_eq_false hx),← List.filter_append,
      List.take_append_drop]
  · cases h

theorem insertAt_isSome : (∃ out, insertAt i x l = some out) ↔ i ≤ l.length := by
  unfold insertAt
  split
  · rename_i h
    exact ⟨fun _ => h,fun _ => ⟨_,rfl⟩⟩
  · rename_i h
    exact ⟨fun ⟨_,hout⟩ => (by cases hout),fun hle => absurd hle h⟩

/-- Something new stands where it was put. -/
theorem insertAt_eq_iff {f : α → Bool} (hx : f x = false) (hl : ∀ a ∈ p ++ l, f a = true) :
    insertAt i x (p ++ l) = some (p ++ x :: l) ↔ i = p.length := by
  constructor
  · intro h
    unfold insertAt at h
    split at h
    · rename_i hle
      have htake := congrArg (List.takeWhile f) (Option.some.inj h)
      have hfront : ∀ a ∈ (p ++ l).take i, f a = true := fun a ha => hl a (List.mem_of_mem_take ha)
      have hback : ∀ a ∈ p, f a = true := fun a ha => hl a (List.mem_append_left l ha)
      rw [List.takeWhile_append_of_pos hfront,List.takeWhile_append_of_pos hback,
        List.takeWhile_cons_of_neg (ne_true_of_eq_false hx),List.append_nil,
        List.takeWhile_cons_of_neg (ne_true_of_eq_false hx),List.append_nil] at htake
      rw [← htake,List.length_take,Nat.min_eq_left hle]
    · cases h
  · rintro rfl
    exact insertAt_length p l x

end Insertions

/-! ## Parts -/

/-- What a part adds. -/
def partOf (origin : Origin) (context : Option String) : List (Entry Block) :=
  (context.map (.system origin)).toList

theorem origin_of_partOf {origin : Origin} {context : Option String} {entry : Entry Block}
    (h : entry ∈ partOf origin context) : entry.origin = origin := by
  cases context with
  | none => cases h
  | some text =>
    obtain rfl := List.mem_singleton.mp h
    rfl

section Injected
variable {position : ℕ} {origin : Origin} {context : Option String}
  {p l entries : List (Entry Block)}

theorem inject_perm (h : inject position origin context l = some entries) :
    entries.Perm (partOf origin context ++ l) := by
  cases context with
  | none =>
    obtain rfl := Option.some.inj h
    exact .refl _
  | some text => exact insertAt_perm h

theorem inject_filter {f : Entry Block → Bool} (hf : ∀ text, f (.system origin text) = false)
    (h : inject position origin context l = some entries) : entries.filter f = l.filter f := by
  cases context with
  | none => rw [Option.some.inj h]
  | some text => exact insertAt_filter (hf text) h

theorem inject_isSome : (∃ entries, inject position origin context l = some entries) ↔
    (context.isSome → position ≤ l.length) := by
  cases context with
  | none => exact iff_of_true ⟨l,rfl⟩ (fun h => by cases h)
  | some text =>
    rw [inject,insertAt_isSome]
    exact ⟨fun h _ => h,fun h => h rfl⟩

/-- A part stands behind the parts before it only at the position that they end at. -/
theorem inject_eq_iff (hnew : ∀ entry ∈ p ++ l, entry.origin ≠ origin) :
    inject position origin context (p ++ l) = some (p ++ (partOf origin context ++ l)) ↔
      (context.isSome → position = p.length) := by
  cases context with
  | none => exact iff_of_true rfl (fun h => by cases h)
  | some text =>
    let f : Entry Block → Bool := fun entry => entry.origin ≠ origin
    have hx : f (.system origin text) = false := decide_eq_false (fun h => h rfl)
    have hl : ∀ entry ∈ p ++ l, f entry = true :=
      fun entry hentry => decide_eq_true (hnew entry hentry)
    exact (insertAt_eq_iff hx hl).trans ⟨fun h _ => h,fun h => h rfl⟩

end Injected

/-! ## The knowledge -/

section Knowledge
variable (config : ContextBuilderConfig) (req : Request Block)

/-- The injected messages in their order. -/
def knowledge : List (Entry Block) :=
  partOf .pks (pksContext config req) ++
    (partOf .entity (entityContext config req) ++ partOf .bks (bksContext req))

def pksCount : ℕ := (pksContext config req).toList.length

def entityCount : ℕ := (entityContext config req).toList.length

/-- The positions lie within the list. -/
structure Fits : Prop where
  entity : (entityContext config req).isSome →
    entityPosition config req ≤ pksCount config req + req.messages.length
  bks : (bksContext req).isSome →
    bksPosition config ≤ pksCount config req + entityCount config req + req.messages.length

/-- The positions are those at which the parts that were inserted before end. -/
structure Placed : Prop where
  entity : (entityContext config req).isSome → entityPosition config req = pksCount config req
  bks : (bksContext req).isSome →
    bksPosition config = pksCount config req + entityCount config req

variable {config req} {entries : List (Entry Block)}

theorem length_partOf (origin : Origin) (context : Option String) :
    (partOf origin context : List (Entry Block)).length = context.toList.length := by
  cases context <;> rfl

theorem length_originals : (originals req).length = req.messages.length := by
  rw [originals,List.length_map,List.length_zipIdx]

theorem originals_origin {entry : Entry Block} (h : entry ∈ originals req) :
    ∃ place, entry.origin = .original place := by
  obtain ⟨⟨message,place⟩,-,rfl⟩ := List.mem_map.mp h
  exact ⟨place,rfl⟩

theorem originals_message : (originals req).map (·.message) = req.messages := by
  rw [originals,List.map_map]
  exact List.zipIdx_map_fst 0 req.messages

theorem inject_pks : inject 0 .pks (pksContext config req) (originals req) =
    some (partOf .pks (pksContext config req) ++ originals req) := by
  cases pksContext config req with
  | none => rfl
  | some text => exact insertAt_zero _ _

theorem enhancedMessages_eq : enhancedMessages config req =
    (inject (entityPosition config req) .entity (entityContext config req)
      (partOf .pks (pksContext config req) ++ originals req)).bind
        (inject (bksPosition config) .bks (bksContext req)) := by
  unfold enhancedMessages
  rw [inject_pks]
  rfl

/-- Wherever the parts stand, the messages are those of the knowledge and the original ones. -/
theorem enhancedMessages_perm (h : enhancedMessages config req = some entries) :
    entries.Perm (knowledge config req ++ originals req) := by
  rw [enhancedMessages_eq] at h
  obtain ⟨entries₂,hentity,hbks⟩ := Option.bind_eq_some_iff.mp h
  have hboth := (inject_perm hbks).trans ((inject_perm hentity).append_left _)
  unfold knowledge
  refine hboth.trans ?_
  rw [← List.append_assoc,← List.append_assoc,← List.append_assoc]
  refine List.Perm.append_right _ ?_
  rw [List.append_assoc,← List.append_assoc]
  exact (List.perm_append_comm.trans (List.Perm.append_left _ List.perm_append_comm)).trans
    (by rw [List.append_assoc])

theorem length_front :
    (partOf .pks (pksContext config req) ++ originals req).length =
      pksCount config req + req.messages.length := by
  rw [List.length_append,length_partOf,length_originals]
  rfl

theorem enhancedMessages_isSome :
    (∃ entries, enhancedMessages config req = some entries) ↔ Fits config req := by
  have hlength {entries₂ : List (Entry Block)}
      (h : inject (entityPosition config req) .entity (entityContext config req)
        (partOf .pks (pksContext config req) ++ originals req) = some entries₂) :
      entries₂.length = pksCount config req + entityCount config req + req.messages.length := by
    rw [(inject_perm h).length_eq,List.length_append,length_partOf,length_front,entityCount]
    omega
  rw [enhancedMessages_eq]
  constructor
  · rintro ⟨entries,h⟩
    obtain ⟨entries₂,hentity,hbks⟩ := Option.bind_eq_some_iff.mp h
    have hpos := inject_isSome.mp ⟨entries₂,hentity⟩
    have hpos' := inject_isSome.mp ⟨entries,hbks⟩
    rw [length_front] at hpos
    rw [hlength hentity] at hpos'
    exact ⟨hpos,hpos'⟩
  · rintro ⟨hpos,hpos'⟩
    rw [← length_front] at hpos
    obtain ⟨entries₂,hentity⟩ := inject_isSome.mpr hpos
    rw [← hlength hentity] at hpos'
    obtain ⟨entries,hbks⟩ := inject_isSome.mpr hpos'
    exact ⟨entries,Option.bind_eq_some_iff.mpr ⟨entries₂,hentity,hbks⟩⟩

theorem ne_of_partOf {origin other : Origin} {context : Option String} {entry : Entry Block}
    (hne : other ≠ origin) (h : entry ∈ partOf other context) : entry.origin ≠ origin := by
  rw [origin_of_partOf h]
  exact hne

theorem ne_of_originals {origin : Origin} {entry : Entry Block}
    (hne : ∀ place, .original place ≠ origin) (h : entry ∈ originals req) :
    entry.origin ≠ origin := by
  obtain ⟨place,hplace⟩ := originals_origin h
  rw [hplace]
  exact hne place

/-- Without the behavioral knowledge the list is what was there before it. -/
theorem filter_bks {entries₂ : List (Entry Block)}
    (hentity : inject (entityPosition config req) .entity (entityContext config req)
      (partOf .pks (pksContext config req) ++ originals req) = some entries₂)
    (hbks : inject (bksPosition config) .bks (bksContext req) entries₂ =
      some (knowledge config req ++ originals req)) :
    entries₂ = partOf .pks (pksContext config req) ++
      (partOf .entity (entityContext config req) ++ originals req) := by
  let f : Entry Block → Bool := fun entry => entry.origin ≠ .bks
  have hfilter := inject_filter (f := f) (fun text => decide_eq_false (fun h => h rfl)) hbks
  have hpart {origin : Origin} {context : Option String} (hne : origin ≠ .bks) :
      (partOf origin context : List (Entry Block)).filter f = partOf origin context :=
    List.filter_eq_self.mpr fun entry hentry => decide_eq_true (ne_of_partOf hne hentry)
  have hback : (partOf .bks (bksContext req) : List (Entry Block)).filter f = [] :=
    List.filter_eq_nil_iff.mpr fun entry hentry h =>
      of_decide_eq_true h (origin_of_partOf hentry)
  have horiginals : (originals req).filter f = originals req :=
    List.filter_eq_self.mpr fun entry hentry =>
      decide_eq_true (ne_of_originals (fun place h => by cases h) hentry)
  have hentries : entries₂.filter f = entries₂ := by
    apply List.filter_eq_self.mpr
    intro entry hentry
    apply decide_eq_true
    rcases List.mem_append.mp ((inject_perm hentity).mem_iff.mp hentry) with h | h
    · exact ne_of_partOf (by decide) h
    · rcases List.mem_append.mp h with h | h
      · exact ne_of_partOf (by decide) h
      · exact ne_of_originals (fun place h => by cases h) h
  rw [hentries] at hfilter
  rw [← hfilter]
  unfold knowledge
  simp only [List.filter_append,hback,horiginals,List.nil_append,List.append_assoc]
  rw [hpart (by decide),hpart (by decide)]

theorem enhancedMessages_eq_iff :
    enhancedMessages config req = some (knowledge config req ++ originals req) ↔
      Placed config req := by
  let front : List (Entry Block) := partOf .pks (pksContext config req)
  let middle : List (Entry Block) := partOf .entity (entityContext config req)
  have hentity : inject (entityPosition config req) .entity (entityContext config req)
        (front ++ originals req) = some (front ++ (middle ++ originals req)) ↔
      ((entityContext config req).isSome → entityPosition config req = front.length) := by
    apply inject_eq_iff
    intro entry hentry
    rcases List.mem_append.mp hentry with h | h
    · exact ne_of_partOf (by decide) h
    · exact ne_of_originals (fun place h => by cases h) h
  have hbks : inject (bksPosition config) .bks (bksContext req)
        ((front ++ middle) ++ originals req) =
          some ((front ++ middle) ++ (partOf .bks (bksContext req) ++ originals req)) ↔
      ((bksContext req).isSome → bksPosition config = (front ++ middle).length) := by
    apply inject_eq_iff
    intro entry hentry
    rcases List.mem_append.mp hentry with h | h
    · rcases List.mem_append.mp h with h | h
      · exact ne_of_partOf (by decide) h
      · exact ne_of_partOf (by decide) h
    · exact ne_of_originals (fun place h => by cases h) h
  rw [length_partOf] at hentity
  rw [List.length_append,length_partOf,length_partOf] at hbks
  simp only [List.append_assoc] at hbks
  rw [enhancedMessages_eq]
  unfold knowledge
  simp only [List.append_assoc]
  constructor
  · intro h
    obtain ⟨entries₂,h₂,h₃⟩ := Option.bind_eq_some_iff.mp h
    have heq := filter_bks h₂ (by simpa only [knowledge,List.append_assoc] using h₃)
    rw [heq] at h₂ h₃
    exact ⟨hentity.mp h₂,hbks.mp h₃⟩
  · rintro ⟨h₂,h₃⟩
    exact Option.bind_eq_some_iff.mpr ⟨_,hentity.mpr h₂,hbks.mpr h₃⟩

end Knowledge

/-! ## The injection point -/

section InjectionPoint
variable {front back messages : List (Message Block)} {message : Message Block}

/-- What is a summary for the gate is one for the injection. -/
theorem isMarked_injection (h : isMarked summaryMarks message) :
    isMarked injectionMarks message := by
  unfold isMarked at h ⊢
  rw [Bool.and_eq_true] at h ⊢
  refine ⟨h.1,?_⟩
  obtain ⟨role,content⟩ := message
  cases content with
  | blocks blocks => exact h.2
  | text text =>
    obtain ⟨mark,hmark,hcontains⟩ := List.any_eq_true.mp h.2
    apply List.any_eq_true.mpr
    rcases List.mem_cons.mp hmark with rfl | hmark
    · exact ⟨_,List.mem_cons_self,hcontains⟩
    · obtain rfl := List.mem_singleton.mp hmark
      refine ⟨"Summary of earlier",by decide,?_⟩
      obtain ⟨tail,htail,hfront⟩ := List.any_eq_true.mp hcontains
      have hshorter : "Summary of earlier".toList <+: "Summary of earlier conversation".toList := by
        decide
      exact List.any_eq_true.mpr ⟨tail,htail,List.isPrefixOf_iff_prefix.mpr
        (hshorter.trans (List.isPrefixOf_iff_prefix.mp hfront))⟩

theorem findInjectionPoint_le (messages : List (Message Block)) :
    findInjectionPoint messages ≤ messages.length := by
  unfold findInjectionPoint
  split
  · rename_i i h
    obtain ⟨hlt,-⟩ := List.findIdx?_eq_some_iff_getElem.mp h
    exact hlt
  · exact (List.takeWhile_sublist _).length_le

theorem findInjectionPoint_behind (hfront : ∀ m ∈ front, isMarked injectionMarks m = false)
    (h : isMarked summaryMarks message) :
    findInjectionPoint (front ++ message :: back) = front.length + 1 := by
  unfold findInjectionPoint
  rw [List.findIdx?_append,List.findIdx?_eq_none_iff.mpr hfront,List.findIdx?_cons,
    isMarked_injection h]
  simp

theorem findInjectionPoint_before (back : List (Message Block)) (hmem : message ∈ front)
    (h : isMarked injectionMarks message) :
    findInjectionPoint (front ++ back) ≤ front.length := by
  unfold findInjectionPoint
  rw [List.findIdx?_append]
  cases hfind : front.findIdx? (isMarked injectionMarks) with
  | none => exact absurd h (ne_true_of_eq_false (List.findIdx?_eq_none_iff.mp hfind message hmem))
  | some i =>
    obtain ⟨hlt,-⟩ := List.findIdx?_eq_some_iff_getElem.mp hfind
    exact hlt

end InjectionPoint

/-! ## The whole context -/

section Whole
variable (toLowercase : String → String) (config : ContextBuilderConfig) (req : Request Block)

/-- Every knowledge message stands before the first original one and in its order, the original
ones are all there, and a retrieved context stands behind their first compaction summary. -/
structure Arranged (out : List (Entry Block)) : Prop where
  kept : out.filter (fun entry => entry.origin ≠ .retrieved) = knowledge config req ++ originals req
  behind : ∀ k, req.messages.findIdx? (isMarked summaryMarks) = some k →
    (∃ entry ∈ out, entry.origin = .retrieved) →
      ∃ entry ∈ out.takeWhile (fun entry => entry.origin ≠ .retrieved), entry.origin = .original k

/-- There is no panic, and what is built is in order. -/
def WellBuilt : Prop :=
  ∃ result, buildContextWithSealAndKnowledge config req toLowercase = some result ∧
    ∀ out, result = .ok out → Arranged config req out

/-- Whether a search is made. -/
def searches : Bool :=
  shouldRetrieve toLowercase config (searchQuery config req)
    ((knowledge config req ++ originals req).map (·.message))

/-- Nothing before the first compaction summary of the messages looks like one to the injection. -/
def SummaryFirst : Prop :=
  ∀ k, req.messages.findIdx? (isMarked summaryMarks) = some k →
    ∀ message ∈ (knowledge config req).map (·.message) ++ req.messages.take k,
      isMarked injectionMarks message = false

/-- What is injected can be cut and is put behind the summary. -/
def Injectable (relevant : List (MessageMetadata × Extended)) : Prop :=
  relevant ≠ [] →
    (∀ item ∈ relevant, Place.Cuttable 500 500 item.1.content) ∧ SummaryFirst config req

/-- The positions are right, or at least within the list where the search fails, and what is
retrieved can be cut and is put behind the summary. -/
def Orderly : Prop :=
  if searches toLowercase config req then
    match relevantItems config req with
    | .error _ => Fits config req
    | .ok relevant => Placed config req ∧ Injectable config req relevant
  else Placed config req

variable {toLowercase config req} {entries out : List (Entry Block)}

theorem exists_map_eq_some {α β : Type} {f : α → β} {o : Option α} :
    (∃ b, o.map f = some b) ↔ ∃ a, o = some a := by
  cases o with
  | none => exact iff_of_false (fun ⟨_,h⟩ => (by cases h)) (fun ⟨_,h⟩ => (by cases h))
  | some a => exact iff_of_true ⟨f a,rfl⟩ ⟨a,rfl⟩

theorem exists_mapM_eq_some {α β : Type} {f : α → Option β} {l : List α} :
    (∃ l', l.mapM f = some l') ↔ ∀ a ∈ l, ∃ b, f a = some b := by
  induction l with
  | nil => exact iff_of_true ⟨[],rfl⟩ (fun a h => by cases h)
  | cons a l ih =>
    rw [List.forall_mem_cons,← ih,List.mapM_cons]
    constructor
    · rintro ⟨l',h⟩
      obtain ⟨b,hfirst,hrest⟩ := Option.bind_eq_some_iff.mp h
      obtain ⟨bs,hbs,-⟩ := Option.bind_eq_some_iff.mp hrest
      exact ⟨⟨b,hfirst⟩,⟨bs,hbs⟩⟩
    · rintro ⟨⟨b,hfirst⟩,⟨bs,hbs⟩⟩
      exact ⟨b :: bs,Option.bind_eq_some_iff.mpr ⟨b,hfirst,
        Option.bind_eq_some_iff.mpr ⟨bs,hbs,rfl⟩⟩⟩

theorem formatInjection_isSome {items : List (MessageMetadata × Extended)} :
    (∃ text, formatInjection items = some text) ↔
      ∀ item ∈ items, Place.Cuttable 500 500 item.1.content := by
  rw [formatInjection,exists_map_eq_some,exists_mapM_eq_some]
  refine forall₂_congr fun item _ => ?_
  rw [← exists_truncateContent_iff]
  exact exists_map_eq_some

/-- The gate looks at the messages in no order. -/
theorem shouldRetrieve_perm {userQuery : String} {messages messages' : List (Message Block)}
    (h : messages.Perm messages') :
    shouldRetrieve toLowercase config userQuery messages =
      shouldRetrieve toLowercase config userQuery messages' := by
  rw [shouldRetrieve_eq,shouldRetrieve_eq,hasCompactionSummary,hasCompactionSummary,h.any_eq,
    h.length_eq]

theorem knowledge_origin {entry : Entry Block} (h : entry ∈ knowledge config req) :
    entry.origin = .pks ∨ entry.origin = .entity ∨ entry.origin = .bks := by
  rcases List.mem_append.mp h with h | h
  · exact .inl (origin_of_partOf h)
  · rcases List.mem_append.mp h with h | h
    · exact .inr (.inl (origin_of_partOf h))
    · exact .inr (.inr (origin_of_partOf h))

theorem base_not_retrieved {entry : Entry Block}
    (h : entry ∈ knowledge config req ++ originals req) : entry.origin ≠ .retrieved := by
  rcases List.mem_append.mp h with h | h
  · rcases knowledge_origin h with horigin | horigin | horigin <;>
      exact fun hretrieved => by rw [horigin] at hretrieved; cases hretrieved
  · exact ne_of_originals (fun place h => by cases h) h

theorem enhancedMessages_not_retrieved (h : enhancedMessages config req = some entries)
    {entry : Entry Block} (hentry : entry ∈ entries) : entry.origin ≠ .retrieved :=
  base_not_retrieved ((enhancedMessages_perm h).mem_iff.mp hentry)

theorem enhancedMessages_filter (h : enhancedMessages config req = some entries) :
    entries.filter (fun entry => entry.origin ≠ .retrieved) = entries :=
  List.filter_eq_self.mpr fun _ hentry =>
    decide_eq_true (enhancedMessages_not_retrieved h hentry)

/-- Without a search the parts have to stand right. -/
theorem arranged_enhanced_iff (h : enhancedMessages config req = some entries) :
    Arranged config req entries ↔ Placed config req := by
  rw [← enhancedMessages_eq_iff,h]
  constructor
  · intro harranged
    have hkept := harranged.kept
    rw [enhancedMessages_filter h] at hkept
    rw [hkept]
  · intro hbase
    refine ⟨?_,?_⟩
    · rw [enhancedMessages_filter h]
      exact Option.some.inj hbase
    · rintro k - ⟨entry,hentry,hretrieved⟩
      exact absurd hretrieved (enhancedMessages_not_retrieved h hentry)

/-! ## What stands before the retrieved context -/

theorem mem_take_original {n k : ℕ} :
    (∃ entry ∈ (knowledge config req ++ originals req).take n, entry.origin = .original k) ↔
      (knowledge config req).length + k < n ∧ k < req.messages.length := by
  have hget (i : ℕ) (h : i < (originals req).length) :
      ((originals req)[i]).origin = .original i := by
    simp [originals]
  constructor
  · rintro ⟨entry,hentry,horigin⟩
    rw [List.take_append] at hentry
    rcases List.mem_append.mp hentry with h | h
    · rcases knowledge_origin (List.mem_of_mem_take h) with hknown | hknown | hknown <;>
        · rw [hknown] at horigin
          cases horigin
    · obtain ⟨i,hi,rfl⟩ := List.mem_take_iff_getElem.mp h
      rw [hget i (by omega)] at horigin
      obtain rfl := Origin.original.inj horigin
      rw [length_originals] at hi
      omega
  · rintro ⟨hn,hk⟩
    rw [← length_originals] at hk
    refine ⟨(originals req)[k],?_,hget k hk⟩
    rw [List.take_append]
    apply List.mem_append_right
    exact List.mem_take_iff_getElem.mpr ⟨k,by omega,rfl⟩

theorem map_base : (knowledge config req ++ originals req).map (·.message) =
    (knowledge config req).map (·.message) ++ req.messages := by
  rw [List.map_append,originals_message]

/-- The injection point lies behind the first summary of the messages just where nothing before it
looks like one. -/
theorem injectionPoint_behind_iff {k : ℕ}
    (hk : req.messages.findIdx? (isMarked summaryMarks) = some k) :
    (knowledge config req).length + k <
        findInjectionPoint ((knowledge config req ++ originals req).map (·.message)) ↔
      ∀ message ∈ (knowledge config req).map (·.message) ++ req.messages.take k,
        isMarked injectionMarks message = false := by
  obtain ⟨hlt,hmarked,-⟩ := List.findIdx?_eq_some_iff_getElem.mp hk
  have hsplit : (knowledge config req ++ originals req).map (·.message) =
      ((knowledge config req).map (·.message) ++ req.messages.take k) ++
        req.messages[k] :: req.messages.drop (k+1) := by
    rw [map_base,List.append_assoc,List.getElem_cons_drop,List.take_append_drop]
  have hlength : ((knowledge config req).map (·.message) ++ req.messages.take k).length =
      (knowledge config req).length + k := by
    rw [List.length_append,List.length_map,List.length_take,Nat.min_eq_left (Nat.le_of_lt hlt)]
  rw [hsplit,← hlength]
  constructor
  · intro hpoint message hmem
    by_contra hne
    have hle := findInjectionPoint_before (req.messages[k] :: req.messages.drop (k+1)) hmem
      (eq_true_of_ne_false hne)
    omega
  · intro hfront
    rw [findInjectionPoint_behind hfront hmarked]
    omega

/-- A retrieved context in the right list is in order where it comes behind the summary. -/
theorem arranged_injected_iff {text : String}
    (h : insertAt (findInjectionPoint ((knowledge config req ++ originals req).map (·.message)))
      (.system .retrieved text) (knowledge config req ++ originals req) = some out) :
    Arranged config req out ↔ SummaryFirst config req := by
  let f : Entry Block → Bool := fun entry => entry.origin ≠ .retrieved
  have hnew : f (.system .retrieved text) = false := decide_eq_false (fun h => h rfl)
  have hold : ∀ entry ∈ knowledge config req ++ originals req, f entry = true :=
    fun entry hentry => decide_eq_true (base_not_retrieved hentry)
  have hkept := insertAt_filter hnew h
  rw [List.filter_eq_self.mpr hold] at hkept
  have hmem : ∃ entry ∈ out, entry.origin = .retrieved :=
    ⟨_,(insertAt_perm h).mem_iff.mpr List.mem_cons_self,rfl⟩
  have hbefore : out.takeWhile f = (knowledge config req ++ originals req).take
      (findInjectionPoint ((knowledge config req ++ originals req).map (·.message))) := by
    unfold insertAt at h
    split at h
    · obtain rfl := Option.some.inj h
      rw [List.takeWhile_append_of_pos
          (fun entry hentry => hold entry (List.mem_of_mem_take hentry)),
        List.takeWhile_cons_of_neg (ne_true_of_eq_false hnew),List.append_nil]
    · cases h
  constructor
  · intro harranged k hk
    have hbehind := harranged.behind k hk hmem
    change ∃ entry ∈ out.takeWhile f, entry.origin = .original k at hbehind
    rw [hbefore,mem_take_original] at hbehind
    exact (injectionPoint_behind_iff hk).mp hbehind.1
  · intro hfirst
    refine ⟨hkept,fun k hk _ => ?_⟩
    change ∃ entry ∈ out.takeWhile f, entry.origin = .original k
    rw [hbefore,mem_take_original]
    obtain ⟨hlt,-⟩ := List.findIdx?_eq_some_iff_getElem.mp hk
    exact ⟨(injectionPoint_behind_iff hk).mpr (hfirst k hk),hlt⟩

/-- What the search adds is in order where the list was and it can be injected. -/
theorem wellInjected_iff {relevant : List (MessageMetadata × Extended)}
    (hrelevant : relevantItems config req = .ok relevant)
    (h : enhancedMessages config req = some entries) :
    (∃ result, injectRetrieved config req entries = some result ∧
      ∀ out, result = .ok out → Arranged config req out) ↔
        Placed config req ∧ Injectable config req relevant := by
  unfold injectRetrieved
  rw [hrelevant]
  dsimp only
  cases relevant with
  | nil =>
    have hplaced := arranged_enhanced_iff h
    constructor
    · rintro ⟨result,hresult,hout⟩
      exact ⟨hplaced.mp (hout entries (Option.some.inj hresult).symm),fun hne => absurd rfl hne⟩
    · rintro ⟨hplace,-⟩
      refine ⟨.ok entries,rfl,fun out hout => ?_⟩
      obtain rfl := Except.ok.inj hout
      exact hplaced.mpr hplace
  | cons item items =>
    have hempty : (item :: items).isEmpty = false := rfl
    rw [hempty,if_neg Bool.false_ne_true]
    constructor
    · rintro ⟨result,hresult,hout⟩
      obtain ⟨text,htext,hinsert⟩ := Option.bind_eq_some_iff.mp hresult
      obtain ⟨out,hinserted,rfl⟩ := Option.map_eq_some_iff.mp hinsert
      have harranged := hout out rfl
      have hbase : entries = knowledge config req ++ originals req := by
        have hkept := insertAt_filter (f := fun entry : Entry Block => entry.origin ≠ .retrieved)
          (decide_eq_false (fun h => h rfl)) hinserted
        rw [enhancedMessages_filter h] at hkept
        rw [← hkept,harranged.kept]
      rw [hbase] at h hinserted
      exact ⟨enhancedMessages_eq_iff.mp h,fun _ => ⟨formatInjection_isSome.mp ⟨text,htext⟩,
        (arranged_injected_iff hinserted).mp harranged⟩⟩
    · rintro ⟨hplace,hinjectable⟩
      obtain ⟨hcut,hfirst⟩ := hinjectable (List.cons_ne_nil item items)
      obtain ⟨text,htext⟩ := formatInjection_isSome.mpr hcut
      have hbase : entries = knowledge config req ++ originals req :=
        Option.some.inj (h.symm.trans (enhancedMessages_eq_iff.mpr hplace))
      rw [hbase]
      obtain ⟨out,hinserted⟩ := insertAt_isSome.mpr (show
        findInjectionPoint ((knowledge config req ++ originals req).map (·.message)) ≤
          (knowledge config req ++ originals req).length by
            have hle := findInjectionPoint_le
              ((knowledge config req ++ originals req).map (·.message))
            rwa [List.length_map] at hle)
      refine ⟨.ok out,Option.bind_eq_some_iff.mpr ⟨text,htext,
        Option.map_eq_some_iff.mpr ⟨out,hinserted,rfl⟩⟩,fun out' hout => ?_⟩
      obtain rfl := Except.ok.inj hout
      exact (arranged_injected_iff hinserted).mpr hfirst

/-- Positions that come from flags are right where the parts that the flags promise are there. -/
theorem wellBuilt_iff (toLowercase : String → String) (config : ContextBuilderConfig)
    (req : Request Block) :
    WellBuilt toLowercase config req ↔ Orderly toLowercase config req := by
  unfold WellBuilt buildContextWithSealAndKnowledge Orderly
  cases h : enhancedMessages config req with
  | none =>
    have hfits : ¬ Fits config req := by
      rw [← enhancedMessages_isSome,h]
      rintro ⟨entries,hentries⟩
      cases hentries
    have hplaced : ¬ Placed config req := by
      rw [← enhancedMessages_eq_iff,h]
      exact fun hbase => by cases hbase
    refine iff_of_false (fun hresult => by cases hresult.choose_spec.1) ?_
    split
    · split
      · exact hfits
      · exact fun hboth => hplaced hboth.1
    · exact hplaced
  | some entries =>
    have hfits : Fits config req := enhancedMessages_isSome.mp ⟨entries,h⟩
    have hsearches : shouldRetrieve toLowercase config (searchQuery config req)
        (entries.map (·.message)) = searches toLowercase config req :=
      shouldRetrieve_perm ((enhancedMessages_perm h).map _)
    rw [Option.bind_some,hsearches]
    split
    · cases hrelevant : relevantItems config req with
      | error e =>
        refine iff_of_true ⟨.error e,?_,fun out hout => by cases hout⟩ hfits
        unfold injectRetrieved
        rw [hrelevant]
      | ok relevant => exact wellInjected_iff hrelevant h
    · rw [← arranged_enhanced_iff h]
      constructor
      · rintro ⟨result,hresult,hout⟩
        exact hout entries (Option.some.inj hresult).symm
      · intro harranged
        refine ⟨.ok entries,rfl,fun out hout => ?_⟩
        obtain rfl := Except.ok.inj hout
        exact harranged

end Whole

/-- A query that refers to something, to a coordinator that knows nothing of the user. -/
def entityOnly : Request Empty where
  messages := [⟨.user,.text "is it done"⟩]
  userQuery := "is it done"
  sealResult := some ⟨[⟨"it","the build",1⟩],"is the build done",1⟩
  coordinator := some ⟨fun _ => .ok none,fun _ => .ok none,1,fun threshold _ => threshold⟩
  conversationId := "c"
  searchConversation := fun _ _ _ _ => .ok []

/-- The entity context comes behind the first message. -/
theorem entityOnly_not_wellBuilt : ¬ WellBuilt id {} entityOnly := by
  rintro ⟨result,hresult,hout⟩
  let entries : List (Entry Empty) :=
    [⟨⟨.user,.text "is it done"⟩,.original 0⟩,
      .system .entity (formatEntityResolutions [⟨"it","the build",1⟩])]
  have hentries : enhancedMessages {} entityOnly = some entries := rfl
  unfold buildContextWithSealAndKnowledge at hresult
  rw [hentries,Option.bind_some] at hresult
  have hok : result = .ok entries := by
    split at hresult
    · exact (Option.some.inj hresult).symm
    · exact (Option.some.inj hresult).symm
  have horigins := congrArg (List.map Entry.origin) (hout entries hok).kept
  revert horigins
  decide

end Rullama.Utils
