import Rullama.Tools.Json

/-! # Conversations in the message store

A conversation manager writes its messages to the message store and reads them back. The store
appends, and returns what it has of a conversation in the order of insertion. Every save writes
the whole history. Model, images and token counts are written and not read by the load.
-/
namespace Rullama.Conversation
open Rullama.Tools

inductive Role where
  | user
  | assistant
  | system
  | tool
  deriving DecidableEq

inductive MessageContent (Block : Type) where
  | text (text : String)
  | blocks (blocks : List Block)

structure Message (Block : Type) where
  role : Role
  content : MessageContent Block

/-- `serde_json` on content blocks: what is written is an array, and is read as what it was. -/
structure Serde (Block : Type) where
  toString : List Block → String
  fromStr : String → Option (List Block)
  read : ∀ blocks, fromStr (toString blocks) = some blocks
  bracket : ∀ blocks, startsWith (trimStart (toString blocks)) "[" = true

/-- A row of the message store. The place that the message had in the history is a ghost. -/
structure MessageMetadata where
  conversationId : String
  role : String
  content : String
  place : ℕ

def Role.name : Role → String
  | .user => "user"
  | .assistant => "assistant"
  | .system => "system"
  | .tool => "tool"

def Role.ofName : String → Role
  | "user" => .user
  | "assistant" => .assistant
  | "system" => .system
  | "tool" => .tool
  | _ => .user

structure ConversationManager (Block : Type) where
  messages : List (Message Block)
  conversationId : String
  store : List MessageMetadata

inductive Call (Block : Type) where
  | addMessage (message : Message Block)
  | saveToDb

variable {Block : Type} (J : Serde Block)

/-- The text that the content is stored as. -/
def MessageContent.stored : MessageContent Block → String
  | .text str => str
  | .blocks bs => J.toString bs

/-- What looks like an array of blocks is taken for blocks. -/
def MessageContent.ofStored (content : String) : MessageContent Block :=
  if startsWith (trimStart content) "[" then
    match J.fromStr content with
    | some bs => .blocks bs
    | none => .text content
  else .text content

def messageToMetadata (conversationId : String) (place : ℕ) (message : Message Block) :
    MessageMetadata :=
  ⟨conversationId,message.role.name,message.content.stored J,place⟩

def metadataToMessage (row : MessageMetadata) : Message Block :=
  ⟨.ofName row.role,.ofStored J row.content⟩

namespace ConversationManager

/-- The rows of the history from the message at `place` on. -/
def rows (conversationId : String) : ℕ → List (Message Block) → List MessageMetadata
  | _, [] => []
  | place, message :: messages =>
    messageToMetadata J conversationId place message :: rows conversationId (place + 1) messages

def saveToDb (s : ConversationManager Block) : ConversationManager Block :=
  if s.messages.isEmpty then s
  else { s with store := s.store ++ rows J s.conversationId 0 s.messages }

def call (s : ConversationManager Block) : Call Block → ConversationManager Block
  | .addMessage message => { s with messages := s.messages ++ [message] }
  | .saveToDb => s.saveToDb J

def getByConversation (s : ConversationManager Block) : List MessageMetadata :=
  s.store.filter (·.conversationId = s.conversationId)

def loadFromDb (s : ConversationManager Block) : List (Message Block) :=
  s.getByConversation.map (metadataToMessage J)

/-- The load gives the messages of the conversation, each of them once and in its place. -/
structure Restores (s : ConversationManager Block) : Prop where
  messages : s.loadFromDb J = s.messages
  places : s.getByConversation.map (·.place) = List.range s.messages.length

end ConversationManager

/-- The content does not come back as something else: blocks never do, a text only where it can
be read as an array of blocks. -/
def MessageContent.Plain : MessageContent Block → Prop
  | .text str => startsWith (trimStart str) "[" = true → J.fromStr str = none
  | .blocks _ => True

/-! ## Single messages -/

variable {J} {message : Message Block} {content : MessageContent Block} {id : String} {place : ℕ}
  {messages : List (Message Block)}

theorem Role.ofName_name (role : Role) : Role.ofName role.name = role := by
  cases role <;> rfl

theorem ofStored_eq_text_iff {str : String} :
    MessageContent.ofStored J str = .text str ↔
      (startsWith (trimStart str) "[" = true → J.fromStr str = none) := by
  rw [MessageContent.ofStored]
  by_cases hb : startsWith (trimStart str) "[" = true
  · rw [if_pos hb]
    cases hread : J.fromStr str with
    | none => exact ⟨fun _ _ => rfl,fun _ => rfl⟩
    | some bs =>
      constructor
      · intro heq
        cases heq
      · intro hplain
        cases hplain hb
  · rw [if_neg hb]
    exact ⟨fun _ h => absurd h hb,fun _ => rfl⟩

theorem ofStored_stored_iff :
    MessageContent.ofStored J (content.stored J) = content ↔ content.Plain J := by
  cases content with
  | text str => exact ofStored_eq_text_iff
  | blocks bs =>
    refine ⟨fun _ => trivial,fun _ => ?_⟩
    simp only [MessageContent.stored,MessageContent.ofStored,J.bracket,J.read,if_true]

theorem metadataToMessage_iff :
    metadataToMessage J (messageToMetadata J id place message) = message ↔
      message.content.Plain J := by
  obtain ⟨role,content⟩ := message
  rw [← ofStored_stored_iff]
  simp only [metadataToMessage,messageToMetadata,Role.ofName_name,Message.mk.injEq,true_and]

namespace ConversationManager

theorem map_rows_iff :
    (rows J id place messages).map (metadataToMessage J) = messages ↔
      ∀ message ∈ messages, message.content.Plain J := by
  induction messages generalizing place with
  | nil => exact ⟨fun _ => List.forall_mem_nil _,fun _ => rfl⟩
  | cons message messages ih =>
    rw [rows,List.map_cons,List.cons.injEq,metadataToMessage_iff,ih,List.forall_mem_cons]

theorem places_rows :
    (rows J id place messages).map (·.place) = List.range' place messages.length := by
  induction messages generalizing place with
  | nil => rfl
  | cons message messages ih =>
    rw [rows,List.map_cons,ih,List.length_cons,List.range'_succ]
    rfl

theorem rows_conversationId : ∀ row ∈ rows J id place messages, row.conversationId = id := by
  induction messages generalizing place with
  | nil => exact List.forall_mem_nil _
  | cons message messages ih => exact List.forall_mem_cons.mpr ⟨rfl,ih⟩

/-! ## Runs -/

variable {s : ConversationManager Block} {calls : List (Call Block)}

/-- The conversation after the calls. -/
def after (J : Serde Block) (s : ConversationManager Block) (calls : List (Call Block)) :
    ConversationManager Block := calls.foldl (call J) s

theorem after_snoc (c : Call Block) : after J s (calls ++ [c]) = (after J s calls).call J c := by
  rw [after,List.foldl_append]
  rfl

/-- A new conversation, with the rows that the store has of others. -/
structure New (s : ConversationManager Block) : Prop where
  messages : s.messages = []
  fresh : ∀ row ∈ s.store, row.conversationId ≠ s.conversationId

theorem getByConversation_saveToDb (h : s.messages ≠ []) :
    (s.saveToDb J).getByConversation =
      s.getByConversation ++ rows J s.conversationId 0 s.messages := by
  have hne : s.messages.isEmpty = false := by simpa using h
  have hall : (rows J s.conversationId 0 s.messages).filter (·.conversationId = s.conversationId) =
      rows J s.conversationId 0 s.messages := by
    rw [List.filter_eq_self]
    intro row hrow
    simpa using rows_conversationId row hrow
  rw [saveToDb,hne]
  simp only [getByConversation,Bool.false_eq_true,if_false,List.filter_append,hall]

theorem saveToDb_of_empty (h : s.messages = []) : s.saveToDb J = s := by
  rw [saveToDb,h]
  rfl

theorem rows_ne_nil (h : messages ≠ []) : rows J id place messages ≠ [] := by
  cases messages with
  | nil => exact absurd rfl h
  | cons message messages => exact List.cons_ne_nil _ _

@[simp] theorem after_conversationId : (after J s calls).conversationId = s.conversationId := by
  induction calls using List.reverseRecOn with
  | nil => rfl
  | append_singleton calls c ih =>
    rw [after_snoc,← ih]
    cases c with
    | addMessage message => rfl
    | saveToDb =>
      rw [call,saveToDb]
      split <;> rfl

/-- The calls are saves, then messages. -/
def Unsaved (calls : List (Call Block)) (added : List (Message Block)) : Prop :=
  ∃ n, calls = List.replicate n .saveToDb ++ added.map .addMessage

theorem after_replicate_save (h : s.messages = []) (n : ℕ) :
    after J s (List.replicate n .saveToDb) = s := by
  induction n with
  | zero => rfl
  | succ n ih =>
    have hcall : s.call J .saveToDb = s := saveToDb_of_empty h
    rw [List.replicate_succ,after,List.foldl_cons,hcall]
    exact ih

theorem after_add (added : List (Message Block)) :
    after J s (added.map .addMessage) = { s with messages := s.messages ++ added } := by
  induction added using List.reverseRecOn with
  | nil => rw [List.append_nil]; rfl
  | append_singleton added message ih =>
    rw [List.map_append,List.map_singleton,after_snoc,ih,call,List.append_assoc]

/-- Saves of an empty history do nothing. -/
theorem New.after_unsaved (h : s.New) {added : List (Message Block)} (hu : Unsaved calls added) :
    after J s calls = { s with messages := added } := by
  obtain ⟨n,rfl⟩ := hu
  have hsplit : after J s (List.replicate n .saveToDb ++ added.map .addMessage) =
      after J (after J s (List.replicate n .saveToDb)) (added.map .addMessage) := List.foldl_append
  rw [hsplit,after_replicate_save h.messages,after_add,h.messages,List.nil_append]

theorem New.getByConversation_eq (h : s.New) : s.getByConversation = [] := by
  rw [getByConversation,List.filter_eq_nil_iff]
  intro row hrow
  simpa using h.fresh row hrow

/-- Nothing is stored of a conversation whose messages all come after the last save. -/
theorem New.unsaved_iff (h : s.New) :
    (after J s calls).getByConversation = [] ↔ ∃ added, Unsaved calls added := by
  constructor
  · intro hnil
    induction calls using List.reverseRecOn with
    | nil => exact ⟨[],0,rfl⟩
    | append_singleton calls c ih =>
      rw [after_snoc] at hnil
      cases c with
      | addMessage message =>
        obtain ⟨added,n,rfl⟩ := ih hnil
        refine ⟨added ++ [message],n,?_⟩
        rw [List.map_append,List.append_assoc]
        rfl
      | saveToDb =>
        by_cases hne : (after J s calls).messages = []
        · rw [call,saveToDb_of_empty hne] at hnil
          obtain ⟨added,hu⟩ := ih hnil
          rw [h.after_unsaved hu] at hne
          obtain rfl : added = [] := hne
          obtain ⟨n,rfl⟩ := hu
          refine ⟨[],n + 1,?_⟩
          rw [List.replicate_succ']
          simp only [List.map_nil,List.append_nil]
        · rw [call,getByConversation_saveToDb hne] at hnil
          exact absurd (List.append_eq_nil_iff.mp hnil).2 (rows_ne_nil hne)
  · rintro ⟨added,hu⟩
    rw [h.after_unsaved hu]
    exact h.getByConversation_eq

theorem messages_saveToDb : (s.saveToDb J).messages = s.messages := by
  rw [saveToDb]
  split <;> rfl

/-- Every stored row is of a message of the history. -/
theorem New.place_lt (h : s.New) :
    ∀ row ∈ (after J s calls).getByConversation, row.place < (after J s calls).messages.length := by
  induction calls using List.reverseRecOn with
  | nil =>
    have hnil : (after J s []).getByConversation = [] := h.getByConversation_eq
    rw [hnil]
    exact List.forall_mem_nil _
  | append_singleton calls c ih =>
    rw [after_snoc]
    cases c with
    | addMessage message =>
      intro row hrow
      have hlt := ih row hrow
      simp only [call,List.length_append,List.length_singleton]
      omega
    | saveToDb =>
      by_cases hne : (after J s calls).messages = []
      · rw [call,saveToDb_of_empty hne]
        exact ih
      · rw [call,getByConversation_saveToDb hne,messages_saveToDb]
        intro row hrow
        rcases List.mem_append.mp hrow with hrow | hrow
        · exact ih row hrow
        · have hplace := List.mem_map_of_mem (f := (·.place)) hrow
          rw [places_rows,List.mem_range'_1] at hplace
          omega

theorem New.messages_eq_nil_iff (h : s.New) :
    (after J s calls).messages = [] ↔ ∀ c ∈ calls, c = .saveToDb := by
  induction calls using List.reverseRecOn with
  | nil => exact ⟨fun _ => List.forall_mem_nil _,fun _ => h.messages⟩
  | append_singleton calls c ih =>
    rw [after_snoc,List.forall_mem_append,List.forall_mem_singleton]
    cases c with
    | addMessage message =>
      constructor
      · intro hnil
        exact absurd (List.append_eq_nil_iff.mp hnil).2 (List.cons_ne_nil _ _)
      · rintro ⟨_,hc⟩
        cases hc
    | saveToDb =>
      rw [call,messages_saveToDb,ih]
      exact ⟨fun hall => ⟨hall,rfl⟩,fun hall => hall.1⟩

theorem New.restores_empty (h : s.New) (hnil : (after J s calls).messages = []) :
    (after J s calls).Restores J := by
  have hall := h.messages_eq_nil_iff.mp hnil
  have hafter : after J s calls = s := by
    rw [List.eq_replicate_of_mem hall]
    exact after_replicate_save h.messages _
  rw [hafter]
  refine ⟨?_,?_⟩
  · rw [loadFromDb,h.getByConversation_eq,h.messages]
    rfl
  · rw [h.getByConversation_eq,h.messages]
    rfl

/-- The save after which a history is restored is its first one. -/
theorem New.savedOnce_of_restores (h : s.New) (hne : (after J s calls).messages ≠ [])
    (hr : ((after J s calls).saveToDb J).Restores J) :
    ∃ added, Unsaved calls added ∧ ∀ message ∈ added, message.content.Plain J := by
  have hplaces := hr.places
  rw [getByConversation_saveToDb hne,List.map_append,places_rows,messages_saveToDb] at hplaces
  have hlength := congrArg List.length hplaces
  rw [List.length_append,List.length_map,List.length_range',List.length_range] at hlength
  have hstored : (after J s calls).getByConversation = [] := by
    rw [← List.length_eq_zero_iff]
    omega
  obtain ⟨added,hu⟩ := h.unsaved_iff.mp hstored
  refine ⟨added,hu,?_⟩
  have hmessages := hr.messages
  rw [loadFromDb,getByConversation_saveToDb hne,hstored,List.nil_append,messages_saveToDb,
    map_rows_iff,h.after_unsaved hu] at hmessages
  exact hmessages

theorem New.restores_saveToDb (h : s.New) {added : List (Message Block)} (hu : Unsaved calls added)
    (hplain : ∀ message ∈ added, message.content.Plain J) (hne : added ≠ []) :
    ((after J s calls).saveToDb J).Restores J := by
  have hmessages : (after J s calls).messages = added := by rw [h.after_unsaved hu]
  have hstored : (after J s calls).getByConversation = [] := h.unsaved_iff.mpr ⟨added,hu⟩
  have hsaved : (after J s calls).messages ≠ [] := by
    rw [hmessages]
    exact hne
  refine ⟨?_,?_⟩
  · rw [loadFromDb,getByConversation_saveToDb hsaved,hstored,List.nil_append,messages_saveToDb,
      map_rows_iff,hmessages]
    exact hplain
  · rw [getByConversation_saveToDb hsaved,hstored,List.nil_append,messages_saveToDb,places_rows,
      List.range_eq_range']

/-- No messages are added, or they all are, each plain, before the last call saves them, and no
call before saves one. -/
def SavedOnce (J : Serde Block) (calls : List (Call Block)) : Prop :=
  (∀ c ∈ calls, c = .saveToDb) ∨ ∃ before added, calls = before ++ [.saveToDb] ∧
    Unsaved before added ∧ ∀ message ∈ added, message.content.Plain J

end ConversationManager

/-! ## Two conversations -/

def hiBlock : String := "\x7b\"type\":\"text\",\"text\":\"hi\"\x7d"

/-- The text of an array of blocks after its first block. -/
def hiTail : List Unit → String
  | [] => "]"
  | _ :: blocks => "," ++ (hiBlock ++ hiTail blocks)

/-- Blocks that are all the text `hi`. -/
def hiArray : List Unit → String
  | [] => "[]"
  | _ :: blocks => "[" ++ (hiBlock ++ hiTail blocks)

theorem hiTail_length (blocks : List Unit) : (hiTail blocks).length = 28 * blocks.length + 1 := by
  induction blocks with
  | nil => rfl
  | cons b blocks ih =>
    have hcomma : ",".length = 1 := rfl
    have hblock : hiBlock.length = 27 := rfl
    rw [hiTail,String.length_append,String.length_append,hcomma,hblock,ih,List.length_cons]
    omega

theorem hiArray_length (blocks : List Unit) : (hiArray blocks).length / 28 = blocks.length := by
  cases blocks with
  | nil => rfl
  | cons b blocks =>
    have hbracket : "[".length = 1 := rfl
    have hblock : hiBlock.length = 27 := rfl
    rw [hiArray,String.length_append,String.length_append,hbracket,hblock,hiTail_length,
      List.length_cons]
    omega

def hiSerde : Serde Unit where
  toString := hiArray
  fromStr str :=
    let blocks := List.replicate (str.length / 28) ()
    if hiArray blocks = str then some blocks else none
  read blocks := by
    have hblocks : List.replicate ((hiArray blocks).length / 28) () = blocks := by
      rw [hiArray_length]
      exact (List.eq_replicate_length.mpr (fun _ _ => rfl)).symm
    simp only [hblocks,if_true]
  bracket blocks := by
    cases blocks with
    | nil => decide
    | cons b blocks =>
      have hopen : isWhitespace '[' = false := by decide
      simp [hiArray,startsWith,trimStart,String.toList_append,hopen]

/-- A new conversation in a store that has a row of another one. -/
def newConversation : ConversationManager Unit := ⟨[],"c2",[⟨"c1","user","hi",0⟩]⟩

theorem newConversation_new : newConversation.New :=
  ⟨rfl,List.forall_mem_singleton.mpr (by decide)⟩

def question : Message Unit := ⟨.user,.text "Who is there?"⟩

def answer : Message Unit := ⟨.assistant,.blocks [(),()]⟩

/-- What is read back of a stored message has its role, and its content exactly when that is not
a text that can be read as an array of blocks. -/
theorem readBack_iff {Block : Type} (J : Serde Block) (conversationId : String) (place : ℕ)
    (message : Message Block) :
    ((metadataToMessage J (messageToMetadata J conversationId place message)).role =
        message.role ∧
      (metadataToMessage J (messageToMetadata J conversationId place message)).content =
        message.content) ↔ message.content.Plain J := by
  simp only [metadataToMessage,messageToMetadata,Role.ofName_name,true_and]
  exact ofStored_stored_iff

/-- The text `[]` comes back as no blocks. -/
theorem brackets_not_readBack : ¬ ∀ (Block : Type) (J : Serde Block) (conversationId : String)
    (place : ℕ) (message : Message Block),
    (metadataToMessage J (messageToMetadata J conversationId place message)).role = message.role ∧
      (metadataToMessage J (messageToMetadata J conversationId place message)).content =
        message.content := by
  intro h
  have hcontent : MessageContent.ofStored hiSerde "[]" = .text "[]" :=
    (h Unit hiSerde "c1" 0 ⟨.user,.text "[]"⟩).2
  have hplain := ofStored_eq_text_iff.mp hcontent (by decide)
  exact absurd hplain (by decide)

end Rullama.Conversation
