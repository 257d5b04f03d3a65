import Rullama.Transition.Machine
import Mathlib.Logic.Function.Basic

/-! # The lines of a monitored process

Two pumps number the lines of a process and put them into one buffer. The number is taken under
one lock and the line is inserted under another, and between the two the other pump may run. A
reader asks for the lines from the `next_offset` of its last answer on. What has been pushed,
delivered, and evicted before the reader came to it are ghosts.
-/
namespace Rullama.Monitor
open Transition (Machine)

def DEFAULT_READ_LIMIT : ℕ := 200
def MAX_READ_LIMIT : ℕ := 2000

inductive LineStream where
  | stdout
  | stderr
deriving DecidableEq

def LineStream.other : LineStream → LineStream
  | .stdout => .stderr
  | .stderr => .stdout

structure Line where
  offset : ℕ
  stream : LineStream
  text : String
deriving DecidableEq

/-- Where the `push_line` of a pump is. -/
inductive PumpState where
  | reading
  /-- the line has its offset and is not inserted yet -/
  | numbered (line : Line)
  /-- evicted lines are still to be added to `dropped` -/
  | evicting (evicted : ℕ)

def PumpState.line : PumpState → Option Line
  | .numbered line => some line
  | _ => none

def PumpState.evicted : PumpState → ℕ
  | .evicting evicted => evicted
  | _ => 0

structure MonitorProcess where
  nextOffset : ℕ
  buffer : List Line
  dropped : ℕ
  pump : LineStream → PumpState
  since : ℕ
  pushed : List Line
  delivered : List Line
  missed : List Line

inductive MonitorEvent where
  /-- a pump has read a line and takes its offset, -/
  | number (stream : LineStream) (text : String)
  /-- inserts it and evicts what is too much, -/
  | insert (stream : LineStream)
  /-- and counts the evicted lines -/
  | count (stream : LineStream)
  | read (maxLines : Option ℕ)

/-- Lines are popped from the front as long as there are too many. -/
def evict (cap : ℕ) : List Line → ℕ × List Line
  | [] => (0,[])
  | line :: lines =>
    if cap < (line :: lines).length then
      let evicted := evict cap lines
      (evicted.1 + 1,evicted.2)
    else (0,line :: lines)

/-- `max_lines`, clamped. -/
def readLimit (maxLines : Option ℕ) : ℕ :=
  max 1 (min (maxLines.getD DEFAULT_READ_LIMIT) MAX_READ_LIMIT)

structure ReadResult where
  lines : List Line
  nextOffset : ℕ
  moreAvailable : Bool

def doRead (buffer : List Line) (since : ℕ) (maxLines : Option ℕ) : ReadResult :=
  let available := buffer.dropWhile (fun line => line.offset < since)
  let lines := available.take (readLimit maxLines)
  { lines
    nextOffset := (lines.getLast?.map (fun line => line.offset + 1)).getD since
    moreAvailable := lines.length < available.length }

namespace MonitorProcess

def new : MonitorProcess where
  nextOffset := 0
  buffer := []
  dropped := 0
  pump _ := .reading
  since := 0
  pushed := []
  delivered := []
  missed := []

variable (s : MonitorProcess) (stream : LineStream)

def number (text : String) : MonitorProcess :=
  let line : Line := ⟨s.nextOffset,stream,text⟩
  { s with
    nextOffset := s.nextOffset + 1
    pump := Function.update s.pump stream (.numbered line)
    pushed := s.pushed ++ [line] }

def insertLine (cap : ℕ) (line : Line) : MonitorProcess :=
  let buffer := s.buffer ++ [line]
  let evicted := evict cap buffer
  let pumpState := if 0 < evicted.1 then .evicting evicted.1 else .reading
  { s with
    buffer := evicted.2
    pump := Function.update s.pump stream pumpState
    missed := s.missed ++ (buffer.take evicted.1).filter (fun line => s.since ≤ line.offset) }

def insert (cap : ℕ) : MonitorProcess :=
  match s.pump stream with
  | .numbered line => s.insertLine stream cap line
  | _ => s

def count : MonitorProcess :=
  { s with
    dropped := s.dropped + (s.pump stream).evicted
    pump := Function.update s.pump stream .reading }

def read (maxLines : Option ℕ) : MonitorProcess :=
  let result := doRead s.buffer s.since maxLines
  { s with since := result.nextOffset, delivered := s.delivered ++ result.lines }

end MonitorProcess

def IsReading (state : PumpState) : Prop := state.line = none ∧ state.evicted = 0

def monitor (cap : ℕ) : Machine MonitorProcess MonitorEvent where
  enabled s
    | .number stream _ => IsReading (s.pump stream)
    | .insert stream => (s.pump stream).line ≠ none
    | .count stream => (s.pump stream).evicted ≠ 0
    | .read _ => True
  next s
    | .number stream text => s.number stream text
    | .insert stream => s.insert stream cap
    | .count stream => s.count stream
    | .read maxLines => s.read maxLines

instance (cap : ℕ) (s : MonitorProcess) : (e : MonitorEvent) → Decidable ((monitor cap).enabled s e)
  | .number stream _ => inferInstanceAs (Decidable ((s.pump stream).line = none ∧
      (s.pump stream).evicted = 0))
  | .insert stream => inferInstanceAs (Decidable ((s.pump stream).line ≠ none))
  | .count stream => inferInstanceAs (Decidable ((s.pump stream).evicted ≠ 0))
  | .read _ => isTrue trivial

/-- The lines come one after the other. -/
def Ascending (lines : List Line) : Prop := lines.Pairwise (fun a b => a.offset < b.offset)

/-- Every line pushed has been delivered, in order and once, or will be, if it is not evicted
before; and no line of the buffer has been passed over. -/
structure Delivering (s : MonitorProcess) : Prop where
  buffer : Ascending s.buffer
  delivered : Ascending s.delivered
  genuine : ∀ line ∈ s.delivered, line ∈ s.pushed
  accounted : ∀ line ∈ s.pushed, line ∈ s.delivered ∨ line ∈ s.buffer ∨ line ∈ s.missed ∨
    ∃ stream, (s.pump stream).line = some line
  notSkipped : ∀ line ∈ s.buffer, line ∈ s.delivered ∨ s.since ≤ line.offset

/-- A read returns the first lines of the buffer that have not been delivered. -/
def ReturnsNext (s : MonitorProcess) : MonitorEvent → Prop
  | .read maxLines => (doRead s.buffer s.since maxLines).lines =
      (s.buffer.filter (fun line => line ∉ s.delivered)).take (readLimit maxLines)
  | _ => True

/-- No line is inserted before one with a smaller offset. -/
def InTurn (s : MonitorProcess) : MonitorEvent → Prop
  | .insert stream => ∀ line ∈ (s.pump stream).line, ∀ waiting ∈ (s.pump stream.other).line,
      line.offset < waiting.offset
  | _ => True

instance (s : MonitorProcess) : (e : MonitorEvent) → Decidable (InTurn s e)
  | .insert stream => inferInstanceAs (Decidable (∀ line ∈ (s.pump stream).line,
      ∀ waiting ∈ (s.pump stream.other).line, line.offset < waiting.offset))
  | .number _ _ | .count _ | .read _ => isTrue trivial

structure InOrder (s : MonitorProcess) : Prop extends Delivering s where
  past : ∀ line ∈ s.delivered, line.offset < s.since
  since_le : s.since ≤ s.nextOffset
  known : ∀ line ∈ s.buffer, line.offset < s.nextOffset ∧ line ∈ s.pushed
  waiting : ∀ stream line, (s.pump stream).line = some line →
    (∀ b ∈ s.buffer, b.offset < line.offset) ∧ s.since ≤ line.offset ∧
      line.offset < s.nextOffset ∧ line ∈ s.pushed

variable {cap since : ℕ} {s : MonitorProcess} {e : MonitorEvent} {stream : LineStream} {line : Line}
  {lines buffer : List Line} {maxLines : Option ℕ}

/-! ## Evicting and reading -/

theorem evict_snd (cap : ℕ) (lines : List Line) :
    (evict cap lines).2 = lines.drop (evict cap lines).1 := by
  induction lines with
  | nil => rfl
  | cons line lines ih =>
    rw [evict]
    split
    · rw [ih,List.drop_succ_cons]
    · rfl

/-- The buffer never has more lines than its cap. -/
theorem length_evict_le (cap : ℕ) (lines : List Line) : (evict cap lines).2.length ≤ cap := by
  induction lines with
  | nil => exact Nat.zero_le cap
  | cons line lines ih =>
    rw [evict]
    split
    case isTrue => exact ih
    case isFalse hle => exact Nat.not_lt.mp hle

theorem dropWhile_eq_filter (h : Ascending lines) (since : ℕ) :
    lines.dropWhile (fun line => line.offset < since) =
      lines.filter (fun line => since ≤ line.offset) := by
  induction lines with
  | nil => rfl
  | cons line lines ih =>
    obtain ⟨hline,hlines⟩ := List.pairwise_cons.mp h
    by_cases hlt : line.offset < since
    · rw [List.dropWhile_cons_of_pos (by simpa using hlt),
        List.filter_cons_of_neg (by simpa using hlt),ih hlines]
    · rw [List.dropWhile_cons_of_neg (by simpa using hlt)]
      refine (List.filter_eq_self.mpr (fun other hother => ?_)).symm
      rcases List.mem_cons.mp hother with rfl | hother
      · simpa using hlt
      · have hnext := hline other hother
        exact decide_eq_true (by omega)

theorem doRead_lines (h : Ascending buffer) (since : ℕ) (maxLines : Option ℕ) :
    (doRead buffer since maxLines).lines =
      (buffer.filter (fun line => since ≤ line.offset)).take (readLimit maxLines) := by
  rw [← dropWhile_eq_filter h]
  rfl

theorem mem_doRead_lines (h : Ascending buffer)
    (hline : line ∈ (doRead buffer since maxLines).lines) : line ∈ buffer ∧ since ≤ line.offset := by
  rw [doRead_lines h] at hline
  simpa using List.mem_of_mem_take hline

theorem ascending_doRead (h : Ascending buffer) :
    Ascending (doRead buffer since maxLines).lines := by
  rw [doRead_lines h]
  exact h.sublist ((List.take_sublist _ _).trans List.filter_sublist)

/-- The answer's `next_offset` is behind the lines of the answer and not behind any other line. -/
theorem doRead_nextOffset (h : Ascending buffer) (since : ℕ) (maxLines : Option ℕ) :
    (∀ line ∈ (doRead buffer since maxLines).lines,
      line.offset < (doRead buffer since maxLines).nextOffset) ∧
    ∀ line ∈ buffer, since ≤ line.offset → line ∈ (doRead buffer since maxLines).lines ∨
      (doRead buffer since maxLines).nextOffset ≤ line.offset := by
  have hnext : (doRead buffer since maxLines).nextOffset =
    ((doRead buffer since maxLines).lines.getLast?.map (fun line => line.offset + 1)).getD since :=
    rfl
  have hlines := doRead_lines h since maxLines
  rcases List.eq_nil_or_concat (doRead buffer since maxLines).lines with hnil | ⟨lines,last,hlast⟩
  · rw [hnext,hnil]
    exact ⟨List.forall_mem_nil _,fun line _ hle => .inr hle⟩
  · rw [hnext,hlast,List.concat_eq_append,List.getLast?_concat]
    have hsplit := List.take_append_drop (readLimit maxLines)
      (buffer.filter (fun line => decide (since ≤ line.offset)))
    rw [← hlines,hlast,List.concat_eq_append] at hsplit
    have hall : Ascending (buffer.filter (fun line => decide (since ≤ line.offset))) :=
      h.sublist List.filter_sublist
    rw [← hsplit,Ascending,List.append_assoc,List.pairwise_append] at hall
    obtain ⟨-,hrest,hbefore⟩ := hall
    have hafter := (List.pairwise_cons.mp hrest).1
    refine ⟨fun line hline => ?_,fun line hmem hle => ?_⟩
    · rcases List.mem_append.mp hline with hline | hline
      · exact Nat.lt_succ_of_lt (hbefore line hline last List.mem_cons_self)
      · rw [List.mem_singleton.mp hline]
        exact Nat.lt_succ_self _
    · have hfilter : line ∈ buffer.filter (fun line => decide (since ≤ line.offset)) :=
        List.mem_filter.mpr ⟨hmem,decide_eq_true hle⟩
      rw [← hsplit] at hfilter
      exact (List.mem_append.mp hfilter).imp_right (hafter line)

/-! ## Steps -/

theorem inOrder_new : InOrder .new where
  buffer := List.Pairwise.nil
  delivered := List.Pairwise.nil
  genuine := List.forall_mem_nil _
  accounted := List.forall_mem_nil _
  notSkipped := List.forall_mem_nil _
  past := List.forall_mem_nil _
  since_le := Nat.le_refl 0
  known := List.forall_mem_nil _
  waiting _ _ h := by cases h

theorem line_update (s : MonitorProcess) (stream other : LineStream) (state : PumpState) :
    (Function.update s.pump stream state other).line = some line ↔
      other = stream ∧ state.line = some line ∨ other ≠ stream ∧ (s.pump other).line = some line := by
  by_cases h : other = stream
  · subst h
    simp
  · simp [h]

theorem InOrder.number (h : InOrder s) (he : IsReading (s.pump stream)) (text : String) :
    InOrder (s.number stream text) where
  buffer := h.buffer
  delivered := h.delivered
  genuine line hline := List.mem_append_left _ (h.genuine line hline)
  accounted line hline := by
    rcases List.mem_append.mp hline with hline | hline
    · refine (h.accounted line hline).imp_right (Or.imp_right (Or.imp_right ?_))
      rintro ⟨other,hother⟩
      have hne : other ≠ stream := by
        rintro rfl
        rw [he.1] at hother
        cases hother
      exact ⟨other,(line_update s stream other _).mpr (.inr ⟨hne,hother⟩)⟩
    · rw [List.mem_singleton.mp hline]
      exact .inr (.inr (.inr ⟨stream,(line_update s stream stream _).mpr (.inl ⟨rfl,rfl⟩)⟩))
  notSkipped := h.notSkipped
  past := h.past
  since_le := Nat.le_succ_of_le h.since_le
  known b hb := ⟨Nat.lt_succ_of_lt (h.known b hb).1,List.mem_append_left _ (h.known b hb).2⟩
  waiting other line hline := by
    rcases (line_update s stream other _).mp hline with ⟨-,hline⟩ | ⟨-,hline⟩
    · obtain rfl := Option.some.inj hline
      exact ⟨fun b hb => (h.known b hb).1,h.since_le,Nat.lt_succ_self _,
        List.mem_append_right _ List.mem_cons_self⟩
    · obtain ⟨hbuffer,hsince,hlt,hpushed⟩ := h.waiting other line hline
      exact ⟨hbuffer,hsince,Nat.lt_succ_of_lt hlt,List.mem_append_left _ hpushed⟩

/-- The pump that inserts a line has none afterwards. -/
theorem pump_insertLine {other : LineStream} {line' : Line}
    (h : ((s.insertLine stream cap line).pump other).line = some line') :
    other ≠ stream ∧ (s.pump other).line = some line' := by
  rcases (line_update s stream other _).mp h with ⟨-,h⟩ | h
  · split at h <;> cases h
  · exact h

theorem other_eq {a b : LineStream} (h : a ≠ b) : a = b.other := by
  cases a <;> cases b <;> first | rfl | exact (h rfl).elim

theorem InOrder.insert (h : InOrder s) (hpump : s.pump stream = .numbered line)
    (ht : InTurn s (.insert stream)) : InOrder (s.insertLine stream cap line) := by
  have hline : (s.pump stream).line = some line := by rw [hpump]; rfl
  obtain ⟨hlast,hsince,hlt,hpushed⟩ := h.waiting stream line hline
  have hkept : (s.insertLine stream cap line).buffer =
      (s.buffer ++ [line]).drop (evict cap (s.buffer ++ [line])).1 := evict_snd cap _
  have hmem : ∀ b ∈ (s.insertLine stream cap line).buffer, b ∈ s.buffer ∨ b = line := by
    intro b hb
    rw [hkept] at hb
    simpa using List.mem_of_mem_drop hb
  have hall : Ascending (s.buffer ++ [line]) :=
    List.pairwise_append.mpr ⟨h.buffer,List.pairwise_singleton _ _,
      fun b hb last hl => List.mem_singleton.mp hl ▸ hlast b hb⟩
  have hnotSkipped : ∀ b ∈ s.buffer ++ [line], b ∈ s.delivered ∨ s.since ≤ b.offset := by
    intro b hb
    rcases List.mem_append.mp hb with hb | hb
    · exact h.notSkipped b hb
    · exact .inr (List.mem_singleton.mp hb ▸ hsince)
  -- a line that comes into the buffer stays there or is evicted, unread if it was not delivered
  have hsplit : ∀ b ∈ s.buffer ++ [line], b ∈ s.delivered ∨
      b ∈ (s.insertLine stream cap line).buffer ∨ b ∈ (s.insertLine stream cap line).missed := by
    intro b hb
    rcases hnotSkipped b hb with hdelivered | hle
    · exact .inl hdelivered
    rw [← List.take_append_drop (evict cap (s.buffer ++ [line])).1 (s.buffer ++ [line])] at hb
    rcases List.mem_append.mp hb with hb | hb
    · refine .inr (.inr (List.mem_append_right _ (List.mem_filter.mpr ⟨hb,?_⟩)))
      exact decide_eq_true hle
    · exact .inr (.inl (hkept ▸ hb))
  refine ⟨⟨?_,h.delivered,h.genuine,?_,?_⟩,h.past,h.since_le,?_,?_⟩
  · rw [hkept]
    exact hall.sublist (List.drop_sublist _ _)
  · intro b hb
    rcases h.accounted b hb with hb | hb | hb | ⟨other,hother⟩
    · exact .inl hb
    · exact (hsplit b (List.mem_append_left _ hb)).imp_right (Or.imp_right .inl)
    · exact .inr (.inr (.inl (List.mem_append_left _ hb)))
    · by_cases heq : other = stream
      · obtain rfl : line = b := Option.some.inj (hline.symm.trans (heq ▸ hother))
        exact (hsplit line List.mem_concat_self).imp_right (Or.imp_right .inl)
      · exact .inr (.inr (.inr ⟨other,(line_update s stream other _).mpr (.inr ⟨heq,hother⟩)⟩))
  · intro b hb
    rw [hkept] at hb
    exact hnotSkipped b (List.mem_of_mem_drop hb)
  · intro b hb
    rcases hmem b hb with hb | rfl
    · exact h.known b hb
    · exact ⟨hlt,hpushed⟩
  · intro other waiting hwaiting
    obtain ⟨hne,hbefore⟩ := pump_insertLine hwaiting
    obtain ⟨hbuffer,hrest⟩ := h.waiting other waiting hbefore
    refine ⟨fun b hb => ?_,hrest⟩
    rcases hmem b hb with hb | rfl
    · exact hbuffer b hb
    · exact ht b hline waiting (other_eq hne ▸ hbefore)

theorem InOrder.count (h : InOrder s) (he : (s.pump stream).evicted ≠ 0) :
    InOrder (s.count stream) where
  buffer := h.buffer
  delivered := h.delivered
  genuine := h.genuine
  accounted line hline := by
    refine (h.accounted line hline).imp_right (Or.imp_right (Or.imp_right ?_))
    rintro ⟨other,hother⟩
    have hne : other ≠ stream := by
      rintro rfl
      cases hpump : s.pump other with
      | numbered line => exact he (by rw [hpump]; rfl)
      | reading | evicting => simp [hpump,PumpState.line] at hother
    exact ⟨other,(line_update s stream other _).mpr (.inr ⟨hne,hother⟩)⟩
  notSkipped := h.notSkipped
  past := h.past
  since_le := h.since_le
  known := h.known
  waiting other line hline := by
    rcases (line_update s stream other _).mp hline with ⟨-,hline⟩ | ⟨-,hline⟩
    · cases hline
    · exact h.waiting other line hline

/-- The lines of an answer come behind those of the answers before. -/
theorem InOrder.read (h : InOrder s) (maxLines : Option ℕ) : InOrder (s.read maxLines) := by
  obtain ⟨hpast,hnext⟩ := doRead_nextOffset h.buffer s.since maxLines
  have hlines : ∀ line ∈ (doRead s.buffer s.since maxLines).lines,
      line ∈ s.buffer ∧ s.since ≤ line.offset := fun line => mem_doRead_lines h.buffer
  -- the next offset is the old one or behind a line of the buffer
  have hle : ∀ bound, s.since ≤ bound → (∀ b ∈ s.buffer, b.offset < bound) →
      (doRead s.buffer s.since maxLines).nextOffset ≤ bound := by
    intro bound hsince hbuffer
    change ((doRead s.buffer s.since maxLines).lines.getLast?.map (fun line => line.offset + 1)).getD
      s.since ≤ bound
    cases hlast : (doRead s.buffer s.since maxLines).lines.getLast? with
    | none => exact hsince
    | some last => exact hbuffer last (hlines last (List.mem_of_getLast? hlast)).1
  have hge : s.since ≤ (doRead s.buffer s.since maxLines).nextOffset := by
    change s.since ≤ ((doRead s.buffer s.since maxLines).lines.getLast?.map
      (fun line => line.offset + 1)).getD s.since
    cases hlast : (doRead s.buffer s.since maxLines).lines.getLast? with
    | none => exact Nat.le_refl _
    | some last => exact Nat.le_succ_of_le (hlines last (List.mem_of_getLast? hlast)).2
  refine ⟨⟨h.buffer,?_,?_,?_,?_⟩,?_,?_,h.known,?_⟩
  · refine List.pairwise_append.mpr ⟨h.delivered,ascending_doRead h.buffer,fun a ha b hb => ?_⟩
    exact Nat.lt_of_lt_of_le (h.past a ha) (hlines b hb).2
  · intro line hline
    rcases List.mem_append.mp hline with hline | hline
    · exact h.genuine line hline
    · exact (h.known line (hlines line hline).1).2
  · intro line hline
    exact (h.accounted line hline).imp_left (List.mem_append_left _)
  · intro line hline
    rcases h.notSkipped line hline with hdelivered | hsince
    · exact .inl (List.mem_append_left _ hdelivered)
    · exact (hnext line hline hsince).imp_left (List.mem_append_right _)
  · intro line hline
    rcases List.mem_append.mp hline with hline | hline
    · exact Nat.lt_of_lt_of_le (h.past line hline) hge
    · exact hpast line hline
  · exact hle s.nextOffset h.since_le (fun b hb => (h.known b hb).1)
  · intro stream line hline
    obtain ⟨hbuffer,hsince,hrest⟩ := h.waiting stream line hline
    exact ⟨hbuffer,hle line.offset hsince hbuffer,hrest⟩

theorem InOrder.next (h : InOrder s) (he : (monitor cap).enabled s e) (ht : InTurn s e) :
    InOrder ((monitor cap).next s e) := by
  cases e with
  | number stream text => exact h.number he text
  | insert stream =>
    change InOrder (s.insert stream cap)
    rw [MonitorProcess.insert]
    split
    · next hpump => exact h.insert hpump ht
    · exact h
  | count stream => exact h.count he
  | read maxLines => exact h.read maxLines

theorem InOrder.returnsNext (h : InOrder s) (e : MonitorEvent) : ReturnsNext s e := by
  cases e with
  | number | insert | count => trivial
  | read maxLines =>
    rw [ReturnsNext,doRead_lines h.buffer]
    congr 1
    refine List.filter_congr (fun line hline => decide_eq_decide.mpr ⟨fun hle hmem => ?_,?_⟩)
    · exact absurd (h.past line hmem) (Nat.not_lt.mpr hle)
    · exact (h.notSkipped line hline).resolve_left

/-! ## Runs -/

/-- Whatever the cap, the lines and the limits, in every order of steps each line is delivered
once and in order unless it is evicted before, as long as the pumps insert in the order of the
offsets. -/
theorem run_delivering {es : List MonitorEvent} (hr : (monitor cap).Run .new es)
    (ht : ∀ p ∈ (monitor cap).trail .new es, InTurn p.1 p.2) :
    Delivering ((monitor cap).exec .new es) ∧
      ∀ p ∈ (monitor cap).trail .new es, ReturnsNext p.1 p.2 := by
  have hstep : ∀ s e, InOrder s → (monitor cap).enabled s e → InTurn s e →
      InOrder ((monitor cap).next s e) := fun _ _ h he ht => h.next he ht
  refine ⟨(hr.invariant_of hstep inOrder_new ht).toDelivering,fun p hp => ?_⟩
  exact (hr.mem_trail_of hstep inOrder_new ht hp).1.returnsNext p.2

/-- Both pumps push, a read is cut off by its limit, and a line is evicted. -/
def deliveringRun : List MonitorEvent :=
  [.number .stdout "one", .insert .stdout, .number .stderr "two", .number .stdout "three",
    .insert .stderr, .read (some 1), .insert .stdout, .count .stdout, .read none,
    .number .stderr "four", .insert .stderr, .count .stderr, .read none]

theorem deliveringRun_delivering :
    Delivering ((monitor 2).exec .new deliveringRun) ∧
      ∀ p ∈ (monitor 2).trail .new deliveringRun, ReturnsNext p.1 p.2 :=
  run_delivering (by decide +kernel) (by decide +kernel)

/-- The second line is inserted and read before the first one comes. -/
def overtakenRun : List MonitorEvent :=
  [.number .stdout "first", .number .stderr "second", .insert .stderr, .read none,
    .insert .stdout, .read none]

theorem overtakenRun_loses : ¬ ∀ (cap : ℕ) (es : List MonitorEvent), (monitor cap).Run .new es →
    Delivering ((monitor cap).exec .new es) ∧
      ∀ p ∈ (monitor cap).trail .new es, ReturnsNext p.1 p.2 := by
  intro h
  have hbuffer := (h 10000 overtakenRun (by decide +kernel)).1.notSkipped
    ⟨0,.stdout,"first"⟩ (by decide +kernel)
  exact absurd hbuffer (by decide +kernel)

end Rullama.Monitor
