import Rullama.Text.TextDecoder
import Rullama.ToolCalls.Parse

/-! # The bubble of a reply

The reply of a model is streamed into a bubble on the screen and into a row of the database. The
bubble has all of it at once; the row gets it in parts, of which the last is pending until it is
flushed.
-/
namespace Rullama.Web
open Text
open ToolCalls (includes)

/-! ## The bubble and the row -/

structure Bubble where
  content : Units := []
  row : Units := []
  pending : Units := []

inductive Write where
  /-- a piece of the stream -/
  | emit (piece : Units)
  | flush
  /-- the responses of tools, appended to both -/
  | append (block : Units)
  /-- what the orchestrator leaves of the reply, set in both -/
  | set (text : Units)

def Bubble.write (b : Bubble) : Write → Bubble
  | .emit piece => { b with content := b.content ++ piece, pending := b.pending ++ piece }
  | .flush => { b with row := b.row ++ b.pending, pending := [] }
  | .append block => { b with content := b.content ++ block, row := b.row ++ block }
  | .set text => { b with content := text, row := text }

/-- The row has what the bubble shows, up to what is pending. -/
def Bubble.Agrees (b : Bubble) : Prop := b.row ++ b.pending = b.content

/-- Nothing is pending that the write would come before in the row. -/
def Harmless (b : Bubble) : Write → Prop
  | .emit _ | .flush => True
  | .append block => block ++ b.pending = b.pending ++ block
  | .set _ => b.pending = []

theorem Bubble.write_agrees_iff {b : Bubble} (h : b.Agrees) (w : Write) :
    (b.write w).Agrees ↔ Harmless b w := by
  unfold Agrees at h ⊢
  cases w with
  | emit piece =>
    refine iff_of_true ?_ trivial
    rw [write,← h,List.append_assoc]
  | flush =>
    refine iff_of_true ?_ trivial
    rw [write,← h,List.append_nil]
  | append block =>
    rw [write,← h]
    simp only [List.append_assoc,List.append_cancel_left_eq]
    rfl
  | set text =>
    rw [write]
    exact List.append_right_eq_self

/-! ## The pieces of a reply -/

/-- What the tokens are. -/
structure Vocabulary where
  tokenStr : ℕ → Option String
  isEos : ℕ → Bool

/-- The text of a token, with blanks for their marks. -/
def piece (v : Vocabulary) (token : ℕ) : Units :=
  (unitsOf ((v.tokenStr token).getD "").toList).map (fun c => if c = 0x2581 then unit ' ' else c)

def lowerUnit (c : UInt16) : UInt16 :=
  if unit 'A' ≤ c && c ≤ unit 'Z' then c + 0x20 else c

def isContextLimit (message : Units) : Bool :=
  includes (units "context length exceeded") (message.map lowerUnit)

/-- What is kept of a generation to resume it. -/
structure InflightGen where
  promptIds : List ℕ
  maxTokens : ℕ
  preEncodePosition : ℕ := 0
  emittedSoFar : Units := []
  emittedTokenCount : ℕ := 0
  lastSampledNext : ℕ := 0

end Rullama.Web
