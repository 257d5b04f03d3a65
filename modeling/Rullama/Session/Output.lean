import Rullama.Transition.Machine
import Mathlib.Data.Int.Notation

/-! # Session output: from the PTY to the client

The session server proxies between the PTY its TUI runs on and one client, whose socket does
not block. One pass of its loop looks for the end of the TUI first, and then reads at most
one buffer from the PTY and writes it to the client.
-/
namespace Rullama.Session
open Transition

/-- What one `write` on the client's socket answers. -/
inductive WriteAnswer where
  | accepted (n : ℕ)
  | interrupted
  | wouldBlock
  | failed
deriving DecidableEq

inductive WriteError where
  | writeZero
  | wouldBlock
  | other
deriving DecidableEq

/-- `write_all`: the bytes that were sent and how it ended, unless the answers run out. -/
def writeAll : List UInt8 → List WriteAnswer → Option (List UInt8 × Except WriteError Unit)
  | [], _ => some ([],.ok ())
  | _ :: _, [] => none
  | buf@(_ :: _), .accepted n :: answers =>
    if n = 0 then some ([],.error .writeZero)
    else (writeAll (buf.drop n) answers).map (fun r => (buf.take n ++ r.1,r.2))
  | buf@(_ :: _), .interrupted :: answers => writeAll buf answers
  | _ :: _, .wouldBlock :: _ => some ([],.error .wouldBlock)
  | _ :: _, .failed :: _ => some ([],.error .other)

inductive WaitStatus where
  | exited (code : ℤ)
  | signaled (signal : ℤ)
deriving DecidableEq

def WaitStatus.code : WaitStatus → ℤ
  | .exited code => code
  | .signaled signal => 128 + signal

/-- The server with what lies in the PTY, what the client was sent of the TUI's output, and
what the TUI wrote since the client came. -/
structure Output where
  pty : List UInt8
  status : Option WaitStatus := none
  client : Option (List UInt8) := some []
  wrote : List UInt8
  /-- the pass has found the TUI alive and comes to the PTY -/
  reading : Bool := false
  returned : Option ℤ := none

inductive OutputEvent where
  | tuiWrites (bytes : List UInt8)
  | tuiExits (status : WaitStatus)
  | checkChild
  | readPty (n : ℕ) (answers : List WriteAnswer)
  | readError

/-- The size of the buffer for the PTY. -/
def ptyBufLen : ℕ := 4096

namespace Output
variable (s : Output)

/-- A client has just come, and these bytes are still in the PTY. -/
def attached (pending : List UInt8) : Output where
  pty := pending
  wrote := pending

def checkChild : Output :=
  match s.status with
  | some status => { s with returned := some status.code }
  | none => { s with reading := true }

/-- An error other than `WouldBlock` drops the client. -/
def forward (chunk : List UInt8) (answers : List WriteAnswer) : Option (List UInt8) :=
  match s.client with
  | none => none
  | some received =>
    match writeAll chunk answers with
    | none => some received
    | some (sent,.ok ()) => some (received ++ sent)
    | some (sent,.error .wouldBlock) => some (received ++ sent)
    | some (_,.error _) => none

def readPty (n : ℕ) (answers : List WriteAnswer) : Output :=
  { s with
    pty := s.pty.drop n
    client := s.forward (s.pty.take n) answers
    reading := false }

/-- The PTY is closed: the loop ends and the TUI is waited for. -/
def readError : Output :=
  { s with returned := some ((s.status.map WaitStatus.code).getD 1) }

def next : OutputEvent → Output
  | .tuiWrites bytes => { s with pty := s.pty ++ bytes, wrote := s.wrote ++ bytes }
  | .tuiExits status => { s with status := some status }
  | .checkChild => s.checkChild
  | .readPty n answers => s.readPty n answers
  | .readError => s.readError

/-- A read takes something if anything is there; it fails only on an empty PTY whose TUI has
gone. -/
def Enabled : OutputEvent → Prop
  | .tuiWrites _ | .tuiExits _ => s.status = none
  | .checkChild => s.reading = false ∧ s.returned = none
  | .readPty n answers => s.reading = true ∧ s.returned = none ∧ n ≤ ptyBufLen ∧
      n ≤ s.pty.length ∧ (s.pty = [] ∨ 0 < n) ∧
      (writeAll (s.pty.take n) answers).isSome = true
  | .readError => s.reading = true ∧ s.returned = none ∧ s.pty = [] ∧ s.status.isSome = true

instance (e : OutputEvent) : Decidable (s.Enabled e) :=
  match e with
  | .tuiWrites _ | .tuiExits _ => inferInstanceAs (Decidable (s.status = none))
  | .checkChild => inferInstanceAs (Decidable (_ ∧ _))
  | .readPty _ _ => inferInstanceAs (Decidable (_ ∧ _ ∧ _ ∧ _ ∧ _ ∧ _))
  | .readError => inferInstanceAs (Decidable (_ ∧ _ ∧ _ ∧ _))

/-- The client is still there and has been sent all the TUI wrote but what is in the PTY; at
the end nothing is left there. -/
structure Delivered : Prop where
  inOrder : ∃ received, s.client = some received ∧ received ++ s.pty = s.wrote
  atEnd : s.returned.isSome = true → s.pty = []

end Output

/-- The answers take this many bytes before the socket would block or fails. -/
def takesAll : ℕ → List WriteAnswer → Bool
  | 0, _ => true
  | n + 1, .accepted m :: answers => 0 < m && takesAll (n + 1 - m) answers
  | n + 1, .interrupted :: answers => takesAll (n + 1) answers
  | _ + 1, _ => false

/-- The socket takes what was read before it would block, and the end of the TUI is noticed
only when the PTY is empty. -/
def Output.Unhurried (s : Output) : OutputEvent → Prop
  | .readPty n answers => takesAll n answers = true
  | .checkChild => s.status.isSome = true → s.pty = []
  | _ => True

def output : Machine Output OutputEvent where
  enabled := Output.Enabled
  next := Output.next

instance (s : Output) (e : OutputEvent) : Decidable (output.enabled s e) :=
  inferInstanceAs (Decidable (s.Enabled e))

theorem writeAll_taken {buf : List UInt8} {answers : List WriteAnswer}
    (h : takesAll buf.length answers = true) : writeAll buf answers = some (buf,.ok ()) := by
  fun_induction writeAll buf answers with
  | case1 answers => rfl
  | case2 b buf => cases h
  | case3 b buf answers => simp [takesAll] at h
  | case4 b buf n answers hn ih =>
    simp only [List.length_cons,takesAll,Bool.and_eq_true] at h
    rw [ih (by simpa using h.2),Option.map_some,List.take_append_drop]
  | case5 b buf answers ih => exact ih h
  | case6 b buf answers => cases h
  | case7 b buf answers => cases h

/-- What `write_all` sends before an error is less than it was given. -/
theorem writeAll_not_taken {buf : List UInt8} {answers : List WriteAnswer}
    {r : List UInt8 × Except WriteError Unit} (h : takesAll buf.length answers = false)
    (hr : writeAll buf answers = some r) : r.1.length < buf.length ∧ ∃ e, r.2 = .error e := by
  fun_induction writeAll buf answers generalizing r with
  | case1 answers => simp [takesAll] at h
  | case2 b buf => cases hr
  | case3 b buf answers =>
    cases hr
    exact ⟨by simp,_,rfl⟩
  | case4 b buf n answers hn ih =>
    obtain ⟨r',hr',rfl⟩ := Option.map_eq_some_iff.mp hr
    simp only [List.length_cons,takesAll,decide_eq_true (Nat.pos_of_ne_zero hn),
      Bool.true_and] at h
    obtain ⟨hlt,he⟩ := ih (by simpa using h) hr'
    refine ⟨?_,he⟩
    simp only [List.length_append,List.length_take,List.length_drop,List.length_cons] at hlt ⊢
    omega
  | case5 b buf answers ih => exact ih h hr
  | case6 b buf answers =>
    cases hr
    exact ⟨by simp,_,rfl⟩
  | case7 b buf answers =>
    cases hr
    exact ⟨by simp,_,rfl⟩

namespace Output
variable {s : Output}

/-- A client that is sent a chunk gets it whole, or loses bytes or the connection. -/
theorem forward_whole {received chunk : List UInt8} {answers : List WriteAnswer}
    (hc : s.client = some received) (h : takesAll chunk.length answers = true) :
    s.forward chunk answers = some (received ++ chunk) := by
  simp only [forward,hc,writeAll_taken h]

theorem forward_short {received chunk received' : List UInt8} {answers : List WriteAnswer}
    (hc : s.client = some received) (h : takesAll chunk.length answers = false)
    (hanswers : (writeAll chunk answers).isSome = true)
    (hf : s.forward chunk answers = some received') :
    received'.length < received.length + chunk.length := by
  obtain ⟨r,hr⟩ := Option.isSome_iff_exists.mp hanswers
  obtain ⟨hlt,e,he⟩ := writeAll_not_taken h hr
  obtain ⟨sent,ending⟩ := r
  simp only at he hlt
  subst he
  simp only [forward,hc,hr] at hf
  cases e with
  | wouldBlock =>
    cases hf
    simp only [List.length_append]
    omega
  | writeZero => cases hf
  | other => cases hf

theorem Delivered.readPty_iff (h : s.Delivered) {n : ℕ} {answers : List WriteAnswer}
    (he : s.Enabled (.readPty n answers)) :
    (s.readPty n answers).Delivered ↔ takesAll n answers = true := by
  obtain ⟨_,hreturned,_,hn,_,hanswers⟩ := he
  obtain ⟨received,hc,hsplit⟩ := h.inOrder
  have hlen : (s.pty.take n).length = n := List.length_take_of_le hn
  constructor
  · intro hd
    obtain ⟨received',hc',hsplit'⟩ := hd.inOrder
    by_contra hne
    have hshort : takesAll (s.pty.take n).length answers = false := by
      rw [hlen]
      exact (Bool.not_eq_true _).mp hne
    have hlt := forward_short hc hshort hanswers hc'
    have htotal := congrArg List.length (hsplit'.trans hsplit.symm)
    simp only [readPty,List.length_append,List.length_drop] at htotal
    omega
  · intro htakes
    have hwhole := forward_whole hc (hlen.symm ▸ htakes)
    constructor
    · refine ⟨_,hwhole,?_⟩
      simp only [readPty]
      rw [List.append_assoc,List.take_append_drop,hsplit]
    · intro hend
      simp only [readPty,hreturned] at hend
      cases hend

theorem checkChild_alive (hstatus : s.status = none) :
    s.checkChild = { s with reading := true } := by
  simp only [checkChild,hstatus]

theorem checkChild_ended {status : WaitStatus} (hstatus : s.status = some status) :
    s.checkChild = { s with returned := some status.code } := by
  simp only [checkChild,hstatus]

theorem Delivered.checkChild_iff (h : s.Delivered) (hreturned : s.returned = none) :
    s.checkChild.Delivered ↔ (s.status.isSome = true → s.pty = []) := by
  cases hstatus : s.status with
  | none =>
    rw [checkChild_alive hstatus]
    refine iff_of_true ⟨h.inOrder,?_⟩ (fun hsome => by cases hsome)
    intro hend
    rw [hreturned] at hend
    cases hend
  | some status =>
    rw [checkChild_ended hstatus]
    constructor
    · intro hd _
      exact hd.atEnd rfl
    · intro hempty
      exact ⟨h.inOrder,fun _ => hempty rfl⟩

theorem Delivered.tuiWrites (h : s.Delivered) (hended : s.returned = none) (bytes : List UInt8) :
    (s.next (.tuiWrites bytes)).Delivered := by
  obtain ⟨received,hc,hsplit⟩ := h.inOrder
  constructor
  · refine ⟨received,hc,?_⟩
    simp only [next]
    rw [← List.append_assoc,hsplit]
  · intro hend
    simp only [next,hended] at hend
    cases hend

/-- The server ends only after the TUI. -/
def EndsAfter (s : Output) : Prop := s.returned.isSome = true → s.status.isSome = true

theorem EndsAfter.next (h : s.EndsAfter) {e : OutputEvent} (he : s.Enabled e) :
    (s.next e).EndsAfter := by
  cases e with
  | tuiWrites bytes => exact h
  | tuiExits status => exact fun _ => rfl
  | checkChild =>
    simp only [Output.next]
    cases hstatus : s.status with
    | none =>
      rw [checkChild_alive hstatus]
      exact h
    | some status =>
      rw [checkChild_ended hstatus]
      intro _
      simp [hstatus]
  | readPty n answers => exact h
  | readError => exact fun _ => he.2.2.2

theorem EndsAfter.running (h : s.EndsAfter) (hstatus : s.status = none) : s.returned = none := by
  by_contra hne
  have hsome := h (Option.isSome_iff_ne_none.mpr hne)
  rw [hstatus] at hsome
  cases hsome

theorem delivered_next_iff (hs : s.EndsAfter) (h : s.Delivered) {e : OutputEvent}
    (he : s.Enabled e) : (s.next e).Delivered ↔ s.Unhurried e := by
  cases e with
  | tuiWrites bytes => exact iff_of_true (h.tuiWrites (hs.running he) bytes) trivial
  | tuiExits status => exact iff_of_true ⟨h.inOrder,h.atEnd⟩ trivial
  | checkChild => exact h.checkChild_iff he.2
  | readPty n answers => exact h.readPty_iff he
  | readError => exact iff_of_true ⟨h.inOrder,fun _ => he.2.2.1⟩ trivial

end Output

/-- Over a run with one client all output is delivered exactly when the socket takes every
chunk before it would block, and the TUI's end is noticed only when the PTY is empty. -/
theorem run_delivered_iff {pending : List UInt8} {es : List OutputEvent}
    (hr : output.Run (.attached pending) es) :
    (∀ p ∈ output.trail (.attached pending) es, (p.1.next p.2).Delivered) ↔
      ∀ p ∈ output.trail (.attached pending) es, p.1.Unhurried p.2 := by
  refine hr.forall_good_iff (M := output) (I := Output.EndsAfter) (G := Output.Delivered)
    (C := Output.Unhurried) ?_ ?_ ?_ ?_
  · intro s e h he
    exact h.next he
  · intro s e hs h he
    exact Output.delivered_next_iff hs h he
  · intro hend
    cases hend
  · exact ⟨⟨[],rfl,rfl⟩,fun hend => by cases hend⟩

/-- Two bytes go out in two writes, and the TUI exits after them. -/
def calmRun : List OutputEvent :=
  [.tuiWrites [0x68,0x69],.checkChild,.readPty 2 [.accepted 1,.accepted 1],
    .tuiExits (.exited 0),.checkChild]

theorem calmRun_delivered : output.Run (.attached []) calmRun ∧
    ∀ p ∈ output.trail (.attached []) calmRun, (p.1.next p.2).Delivered := by
  have hrun : output.Run (.attached []) calmRun := by decide
  refine ⟨hrun,(run_delivered_iff hrun).mpr ?_⟩
  simp only [calmRun,Machine.forall_trail_cons]
  refine ⟨?_,?_,?_,?_,?_,Machine.forall_trail_nil⟩
  · trivial
  · intro hsome
    cases hsome
  · rfl
  · trivial
  · intro _
    rfl

/-- The socket takes one of the two bytes and would block for the other, which is dropped. -/
def blockedRun : List OutputEvent :=
  [.tuiWrites [0x68,0x69],.checkChild,.readPty 2 [.accepted 1,.wouldBlock]]

theorem blockedRun_undelivered :
    ¬ ∀ es, output.Run (.attached []) es →
      ∀ p ∈ output.trail (.attached []) es, (p.1.next p.2).Delivered := by
  intro h
  have hrun : output.Run (.attached []) blockedRun := by decide
  obtain ⟨received,hc,hsplit⟩ := (h blockedRun hrun _ (.tail _ (.tail _ (.head _)))).inOrder
  cases hc
  cases hsplit

end Rullama.Session
