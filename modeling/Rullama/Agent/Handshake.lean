import Rullama.Transition.Machine

/-! # Handshakes on an agent's socket

Every peer that connects to the socket sends one handshake and is answered once. The token
of the session is in a file that only its owner can read; the file may be removed while the
agent runs, and the place it is in may not be found.
-/
namespace Rullama.Agent
open Transition

structure Handshake where
  version : ℕ
  isReattach : Bool
  sessionId : Option String
  sessionToken : Option String
deriving DecidableEq

structure HandshakeResponse where
  accepted : Bool
  sessionId : String
  sessionToken : Option String
  error : Option String
deriving DecidableEq

/-- The protocol library: its version, and the comparison of the token in the file with the
one provided. -/
structure SocketProtocol where
  version : ℕ
  validate : Option String → String → Bool

/-- What one connection meets: what it reads of the peer, and whether the token file is
found when the token is validated and when it is read for the answer. -/
structure Connection where
  handshake : Except String (Option Handshake)
  foundToValidate : Bool := true
  foundToRead : Bool := true

structure Socket where
  sessionId : String
  token : String
  tokenFile : Option String
  accepted : ℕ := 0

namespace Socket
variable (protocol : SocketProtocol) (s : Socket)

/-- The agent writes its token before it listens. -/
def new (sessionId token : String) : Socket where
  sessionId
  token
  tokenFile := some token

def refuse (error : String) : HandshakeResponse where
  accepted := false
  sessionId := ""
  sessionToken := none
  error := some error

def validateSessionToken (found : Bool) (provided : String) : Bool :=
  found && protocol.validate s.tokenFile provided

/-- `read_session_token(..).ok().flatten()` -/
def readSessionToken (found : Bool) : Option String := if found then s.tokenFile else none

/-- The response to a handshake. -/
def respond (c : Connection) (handshake : Handshake) : HandshakeResponse :=
  if handshake.version ≠ protocol.version ∧ handshake.version ≠ 1 then
    refuse ("Protocol version mismatch: expected " ++ toString protocol.version ++ ", got " ++
      toString handshake.version)
  else if handshake.isReattach ∧ handshake.sessionToken.getD "" = "" then
    refuse "Session token required for reattachment"
  else if handshake.isReattach ∧
      s.validateSessionToken protocol c.foundToValidate (handshake.sessionToken.getD "") = false then
    refuse "Invalid session token"
  else
    { accepted := true
      sessionId := s.sessionId
      sessionToken := if handshake.isReattach then none else s.readSessionToken c.foundToRead
      error := none }

/-- `handle_viewer_connection`, up to its response. -/
def handleViewerConnection (c : Connection) : Except String HandshakeResponse :=
  match c.handshake with
  | .error e => .error e
  | .ok none => .error "Connection closed during handshake"
  | .ok (some handshake) => .ok (s.respond protocol c handshake)

end Socket

inductive SocketEvent where
  | connection (c : Connection)
  | tokenRemoved

def Socket.next (protocol : SocketProtocol) (s : Socket) : SocketEvent → Socket
  | .connection c =>
    match s.handleViewerConnection protocol c with
    | .ok response => { s with accepted := s.accepted + response.accepted.toNat }
    | .error _ => s
  | .tokenRemoved => { s with tokenFile := none }

def socket (protocol : SocketProtocol) : Machine Socket SocketEvent where
  enabled _ _ := True
  next := Socket.next protocol

/-- The file holds the token of the session or is gone. -/
def Socket.HoldsToken (s : Socket) : Prop := s.tokenFile = none ∨ s.tokenFile = some s.token

/-- A peer that comes after the first viewer is accepted or told the token only if it
presented it. -/
def Socket.Authenticated (protocol : SocketProtocol) (s : Socket) : SocketEvent → Prop
  | .connection c => 0 < s.accepted → ∀ handshake, c.handshake = .ok (some handshake) →
      (s.respond protocol c handshake).accepted = true ∨
        (s.respond protocol c handshake).sessionToken = some s.token →
      handshake.sessionToken = some s.token
  | .tokenRemoved => True

/-- A peer that comes after the first viewer, with a version that is let in, asks for a
reattachment or presents the token all the same. -/
def Socket.AsksToReattach (protocol : SocketProtocol) (s : Socket) : SocketEvent → Prop
  | .connection c => 0 < s.accepted → ∀ handshake, c.handshake = .ok (some handshake) →
      (handshake.version = protocol.version ∨ handshake.version = 1) →
      handshake.isReattach = true ∨ handshake.sessionToken = some s.token
  | .tokenRemoved => True

namespace Socket
variable {protocol : SocketProtocol} {s : Socket} {c : Connection} {handshake : Handshake}

theorem respond_refused (h : (s.respond protocol c handshake).accepted = false) :
    (s.respond protocol c handshake).sessionToken = none ∧
      (s.respond protocol c handshake).error.isSome = true := by
  revert h
  unfold respond
  split
  · intro _
    exact ⟨rfl,rfl⟩
  split
  · intro _
    exact ⟨rfl,rfl⟩
  split
  · intro _
    exact ⟨rfl,rfl⟩
  · intro h
    cases h

/-- A handshake is accepted when its version is let in and, if it is for a reattachment, its
token is validated. -/
theorem respond_accepted_iff : (s.respond protocol c handshake).accepted = true ↔
    (handshake.version = protocol.version ∨ handshake.version = 1) ∧
      (handshake.isReattach = true → handshake.sessionToken.getD "" ≠ "" ∧
        s.validateSessionToken protocol c.foundToValidate (handshake.sessionToken.getD "") = true) := by
  unfold respond
  split
  · rename_i hversion
    simp only [refuse,Bool.false_eq_true,false_iff,not_and]
    intro h
    rcases h with h | h
    · exact absurd h hversion.1
    · exact absurd h hversion.2
  rename_i hversion
  have hlet : handshake.version = protocol.version ∨ handshake.version = 1 := by
    by_contra hne
    exact hversion (not_or.mp hne)
  split
  · rename_i hempty
    simp [refuse,hlet,hempty.1,hempty.2]
  rename_i hempty
  split
  · rename_i hinvalid
    simp [refuse,hlet,hinvalid.1,hinvalid.2]
  rename_i hinvalid
  refine iff_of_true rfl ⟨hlet,fun hreattach => ⟨?_,?_⟩⟩
  · exact fun he => hempty ⟨hreattach,he⟩
  · exact (Bool.not_eq_false _).mp (fun he => hinvalid ⟨hreattach,he⟩)

theorem HoldsToken.next (h : s.HoldsToken) (e : SocketEvent) :
    (s.next protocol e).HoldsToken := by
  cases e with
  | tokenRemoved => exact .inl rfl
  | connection c =>
    simp only [Socket.next]
    cases s.handleViewerConnection protocol c with
    | error e => exact h
    | ok response => exact h

/-- Only the token itself is validated. -/
theorem HoldsToken.validated (h : s.HoldsToken)
    (hvalidate : ∀ stored provided, protocol.validate stored provided = true →
      stored = some provided) {found : Bool} {provided : String}
    (hv : s.validateSessionToken protocol found provided = true) : provided = s.token := by
  rw [validateSessionToken,Bool.and_eq_true] at hv
  have hstored := hvalidate _ _ hv.2
  rcases h with h | h
  · rw [h] at hstored
    cases hstored
  · rw [h] at hstored
    exact (Option.some.inj hstored).symm

theorem authenticated_iff (h : s.HoldsToken)
    (hvalidate : ∀ stored provided, protocol.validate stored provided = true →
      stored = some provided) (e : SocketEvent) :
    s.Authenticated protocol e ↔ s.AsksToReattach protocol e := by
  cases e with
  | tokenRemoved => exact Iff.rfl
  | connection c =>
    refine imp_congr_right (fun _ => forall_congr' fun handshake => imp_congr_right fun _ => ?_)
    constructor
    · intro hauth hversion
      by_cases hreattach : handshake.isReattach = true
      · exact .inl hreattach
      · exact .inr (hauth (.inl (respond_accepted_iff.mpr ⟨hversion,fun hr => absurd hr hreattach⟩)))
    · intro hasks htold
      have haccepted : (s.respond protocol c handshake).accepted = true := by
        rcases htold with haccepted | htoken
        · exact haccepted
        · by_contra hne
          have hnone := (respond_refused ((Bool.not_eq_true _).mp hne)).1
          rw [htoken] at hnone
          cases hnone
      obtain ⟨hversion,hvalid⟩ := respond_accepted_iff.mp haccepted
      rcases hasks hversion with hreattach | hpresented
      · obtain ⟨hne,hvalid⟩ := hvalid hreattach
        have htoken := h.validated hvalidate hvalid
        cases hprovided : handshake.sessionToken with
        | none => simp [hprovided] at hne
        | some provided =>
          rw [hprovided,Option.getD_some] at htoken
          rw [htoken]
      · exact hpresented

end Socket

/-- Over a run every later peer that is let in has presented the token exactly when every
later peer of a known version asks to reattach or presents it. -/
theorem run_authenticated_iff {protocol : SocketProtocol}
    (hvalidate : ∀ stored provided, protocol.validate stored provided = true →
      stored = some provided) {sessionId token : String} {es : List SocketEvent}
    (hr : (socket protocol).Run (.new sessionId token) es) :
    (∀ p ∈ (socket protocol).trail (.new sessionId token) es,
      p.1.Authenticated protocol p.2) ↔
      ∀ p ∈ (socket protocol).trail (.new sessionId token) es,
        p.1.AsksToReattach protocol p.2 := by
  refine hr.forall_iff (G := Socket.HoldsToken) (P := Socket.Authenticated protocol)
    (C := Socket.AsksToReattach protocol) ?_ ?_ (.inr rfl)
  · intro s e h _ _
    exact h.next e
  · intro s e h _
    exact Socket.authenticated_iff h hvalidate e

/-- A library of version 2 that compares tokens as texts. -/
def plainProtocol : SocketProtocol where
  version := 2
  validate stored provided := stored = some provided

def newViewer : Connection := { handshake := .ok (some ⟨2,false,none,none⟩) }

def returningViewer : Connection :=
  { handshake := .ok (some ⟨2,true,some "main",some "3f9a"⟩) }

def returningRun : List SocketEvent := [.connection newViewer,.connection returningViewer]

theorem returningRun_authenticated :
    (socket plainProtocol).Run (.new "main" "3f9a") returningRun ∧
    ∀ p ∈ (socket plainProtocol).trail (.new "main" "3f9a") returningRun,
      p.1.Authenticated plainProtocol p.2 := by
  have hrun : (socket plainProtocol).Run (.new "main" "3f9a") returningRun :=
    ⟨trivial,trivial,trivial⟩
  refine ⟨hrun,(run_authenticated_iff ?_ hrun).mpr ?_⟩
  · intro stored provided h
    exact of_decide_eq_true h
  · intro p hp
    rcases List.mem_pair.mp hp with rfl | rfl
    · intro haccepted
      cases haccepted
    · intro _ handshake hread _
      cases hread
      exact .inl rfl

/-- Two peers that ask for a new session, one after the other: both are accepted and told
the token. -/
theorem secondNewViewer_accepted :
    ¬ ∀ es, (socket plainProtocol).Run (.new "main" "3f9a") es →
      ∀ p ∈ (socket plainProtocol).trail (.new "main" "3f9a") es,
        p.1.Authenticated plainProtocol p.2 := by
  intro h
  have hsecond := h [.connection newViewer,.connection newViewer] ⟨trivial,trivial,trivial⟩ _
    (.tail _ (.head _))
  exact absurd (hsecond (by decide) _ rfl (.inl rfl)) (by decide)

end Rullama.Agent
