import Rullama.Native.Worker
import Mathlib.Data.List.Nodup
import Mathlib.Tactic.Common

/-! # Cancelling a generation

The flag of a model says of the generation that runs whether it is to stop, as long as
nobody sets it for a generation that the worker has not started yet.
-/
namespace Rullama.Native
open Transition (Machine)

namespace Engine
variable {s : Engine}

/-- The generation is to emit nothing more. -/
def Stopped (s : Engine) (id : ℕ) : Prop := s.tokenCancelled id = true ∨ s.freed = true

/-- A poll lets a piece out exactly when the generation is to go on. -/
def Heard (s : Engine) : EngineEvent → Prop
  | .poll eos => ∀ id gen produced, s.worker = .polling id gen produced →
      produced < gen.maxNew →
        ((s.next (.poll eos)).worker = .emitting id gen produced ↔ eos = false ∧ ¬ s.Stopped id)
  | _ => True

/-- The calls of a generation that have begun, and which the worker has not started. -/
def Pending (s : Engine) (id : ℕ) : Prop :=
  s.calls id = some .begun ∨ s.calls id = some .registered ∨ s.calls id = some .queued

/-- A token is cancelled when the worker has started its generation, and not any more when
the worker runs another one. The model is freed when no generation waits for the worker,
and none is sent before the worker is told to end. -/
def Timely (s : Engine) : EngineEvent → Prop
  | .cancelToken id => ¬ s.Pending id ∧ (s.calls id = some .replied → s.worker.current = none)
  | .free => s.worker.awaited = none ∧ ∀ cmd ∈ s.channel, cmd.generation = none
  | .send _ _ => s.freed = true → s.shutdownSent = true
  | _ => True

/-- The generations that wait for the worker, the first one perhaps taken already. -/
def waiting (s : Engine) : List ℕ :=
  s.worker.awaited.toList ++ s.channel.filterMap Command.generation

/-- No generation comes before the end, which is in the channel once it has been sent. -/
def Ending (s : Engine) : Prop :=
  s.worker.awaited = none ∧
    (∀ cmd ∈ s.channel.takeWhile (fun cmd => !cmd.isShutdown), cmd.generation = none) ∧
    (s.shutdownSent = true → ∃ cmd ∈ s.channel, cmd.isShutdown = true)

structure InStep (s : Engine) : Prop where
  current_iff : ∀ id, s.worker.current = some id ↔ s.calls id = some .running
  flag : ∀ id, s.worker.current = some id → (s.cancel = true ↔ s.Stopped id)
  queued : ∀ id ∈ s.waiting, s.calls id = some .queued
  nodup : s.waiting.Nodup
  pending : ∀ id, s.Pending id → s.tokenCancelled id = false
  stopped : s.worker.isStopped = true → s.channel = []
  sent : s.shutdownSent = true → s.freed = true
  freed : s.freed = true → s.worker.isStopped = true ∨ s.Ending

theorem InStep.heard (h : s.InStep) (e : EngineEvent) : s.Heard e := by
  cases e with
  | poll eos =>
    intro id gen produced hworker hproduced
    have hflag := h.flag id (by rw [hworker]; rfl)
    simp only [next,poll,hworker,if_pos hproduced]
    rw [← hflag]
    cases s.cancel with
    | true => simp [finish]
    | false =>
      cases eos with
      | true => simp [finish]
      | false => simp
  | _ => exact trivial

/-! ## Calls -/

theorem setCall_calls (id : ℕ) (stage : Stage) (i : ℕ) :
    (s.setCall id stage).calls i = if i = id then some stage else s.calls i := by
  simp only [setCall,Function.update_apply]

/-- A call moves on, other than to the worker or from it. -/
theorem InStep.setCall (h : s.InStep) {id : ℕ} {stage : Stage} (hstage : stage ≠ .running)
    (hcurrent : s.calls id ≠ some .running) (hwaiting : id ∉ s.waiting)
    (hpending : s.tokenCancelled id = false ∨ stage = .replied ∨ stage = .returned) :
    (s.setCall id stage).InStep := by
  refine ⟨?_,h.flag,?_,h.nodup,?_,h.stopped,h.sent,h.freed⟩
  · intro i
    rw [setCall_calls]
    by_cases hi : i = id
    · rw [if_pos hi,hi]
      refine iff_of_false ?_ (by simpa using hstage)
      exact fun hrun => hcurrent ((h.current_iff id).mp hrun)
    · rw [if_neg hi]
      exact h.current_iff i
  · intro i hi
    rw [setCall_calls,if_neg (fun heq => hwaiting (by rw [← heq]; exact hi))]
    exact h.queued i hi
  · intro i hi
    unfold Pending at hi
    rw [setCall_calls] at hi
    by_cases hid : i = id
    · rw [if_pos hid] at hi
      rcases hpending with hpending | rfl | rfl
      · exact hid ▸ hpending
      · simp at hi
      · simp at hi
    · rw [if_neg hid] at hi
      exact h.pending i hi

theorem InStep.not_waiting (h : s.InStep) {id : ℕ} (hcall : s.calls id ≠ some .queued) :
    id ∉ s.waiting := fun hid => hcall (h.queued id hid)

theorem waiting_of_stopped (h : s.InStep) (hstopped : s.worker.isStopped = true) :
    s.waiting = [] := by
  have haw : s.worker.awaited = none := by
    cases hw : s.worker <;> simp_all [Worker.isStopped,Worker.awaited]
  rw [waiting,haw,h.stopped hstopped]
  rfl

/-- The part of a channel before the end, when a command is added. -/
theorem mem_takeWhile_append {cmds : List Command} {cmd x : Command}
    (h : x ∈ (cmds ++ [cmd]).takeWhile (fun cmd => !cmd.isShutdown)) :
    x ∈ cmds.takeWhile (fun cmd => !cmd.isShutdown) ∨
      x = cmd ∧ ∀ y ∈ cmds, y.isShutdown = false := by
  induction cmds with
  | nil =>
    have hx := (List.takeWhile_sublist _).subset h
    exact .inr ⟨List.mem_singleton.mp hx,List.forall_mem_nil _⟩
  | cons y ys ih =>
    cases hy : y.isShutdown with
    | true => simp [hy] at h
    | false =>
      simp only [List.cons_append,List.takeWhile_cons,hy,Bool.not_false,if_true,
        List.mem_cons] at h ⊢
      rcases h with rfl | h
      · exact .inl (.inl rfl)
      · rcases ih h with hx | ⟨hx,hnone⟩
        · exact .inl (.inr hx)
        · refine .inr ⟨hx,fun z hz => ?_⟩
          rcases hz with rfl | hz
          · exact hy
          · exact hnone z hz

theorem InStep.sendCommand (h : s.InStep) {cmd : Command}
    (hqueued : ∀ id, cmd.generation = some id → s.calls id = some .queued ∧ id ∉ s.waiting)
    (hfreed : s.freed = true → cmd.generation = none ∨ s.shutdownSent = true) :
    (s.sendCommand cmd).InStep := by
  unfold Engine.sendCommand
  cases hstopped : s.worker.isStopped with
  | true => exact h
  | false =>
    rw [if_neg Bool.false_ne_true]
    have hwaiting : { s with channel := s.channel ++ [cmd] }.waiting =
        s.waiting ++ cmd.generation.toList := by
      simp only [waiting,List.filterMap_append,List.append_assoc]
      cases hgen : cmd.generation with
      | none => simp [hgen]
      | some id => simp [hgen]
    refine ⟨h.current_iff,h.flag,?_,?_,h.pending,?_,h.sent,?_⟩
    · intro i hi
      rw [hwaiting] at hi
      rcases List.mem_append.mp hi with hi | hi
      · exact h.queued i hi
      · exact (hqueued i (Option.mem_toList.mp hi)).1
    · rw [hwaiting]
      cases hgen : cmd.generation with
      | none => simpa using h.nodup
      | some id =>
        refine List.nodup_append.mpr ⟨h.nodup,List.nodup_singleton _,?_⟩
        rintro a ha b hb rfl
        cases List.mem_singleton.mp hb
        exact (hqueued _ hgen).2 ha
    · intro hs
      exact absurd (hstopped.symm.trans hs) Bool.false_ne_true
    · intro hfree
      rcases h.freed hfree with hs | ⟨haw,hbefore,hafter⟩
      · exact .inl hs
      · refine .inr ⟨haw,?_,?_⟩
        · intro x hx
          rcases mem_takeWhile_append hx with hx | ⟨rfl,hnone⟩
          · exact hbefore x hx
          · rcases hfreed hfree with hgen | hsent
            · exact hgen
            · obtain ⟨y,hy,hyend⟩ := hafter hsent
              exact absurd ((hnone y hy).symm.trans hyend) Bool.false_ne_true
        · intro hsent
          obtain ⟨y,hy,hyend⟩ := hafter hsent
          exact ⟨y,List.mem_append_left _ hy,hyend⟩

/-! ## The worker -/

theorem InStep.finish (h : s.InStep) {id : ℕ} (hid : s.worker.current = some id) :
    (s.finish id).InStep := by
  have haw : s.worker.awaited = none := by
    cases hw : s.worker <;> simp_all [Worker.current,Worker.awaited]
  have hrun := (h.current_iff id).mp hid
  have hwaiting : (s.finish id).waiting = s.waiting := by
    rw [waiting,waiting,haw]
    rfl
  refine ⟨?_,nofun,?_,hwaiting ▸ h.nodup,?_,nofun,h.sent,?_⟩
  · intro i
    refine iff_of_false nofun ?_
    rw [Engine.finish,setCall_calls]
    by_cases hi : i = id
    · rw [if_pos hi]
      exact nofun
    · rw [if_neg hi]
      intro hcall
      exact hi (Option.some.inj (((h.current_iff i).mpr hcall).symm.trans hid))
  · intro i hi
    rw [hwaiting] at hi
    have hcall := h.queued i hi
    rw [Engine.finish,setCall_calls,if_neg ?_]
    · exact hcall
    · rintro rfl
      rw [hrun] at hcall
      cases hcall
  · intro i hi
    rw [Pending,Engine.finish,setCall_calls] at hi
    by_cases hid : i = id
    · simp [hid] at hi
    · rw [if_neg hid] at hi
      exact h.pending i hi
  · intro hfree
    rcases h.freed hfree with hs | ⟨_,hends⟩
    · cases hw : s.worker <;> simp_all [Worker.current,Worker.isStopped]
    · exact .inr ⟨rfl,hends⟩

/-- The generation goes on. -/
theorem InStep.advance (h : s.InStep) {id : ℕ} (hid : s.worker.current = some id) {w : Worker}
    (hcurrent : w.current = some id) : { s with worker := w }.InStep := by
  have haw : ∀ w : Worker, w.current = some id → w.awaited = none ∧ w.isStopped = false := by
    intro w hw
    cases w <;> simp_all [Worker.current,Worker.awaited,Worker.isStopped]
  have hwaiting : { s with worker := w }.waiting = s.waiting := by
    rw [waiting,waiting,(haw _ hid).1,(haw _ hcurrent).1]
  refine ⟨?_,?_,?_,hwaiting ▸ h.nodup,h.pending,?_,h.sent,?_⟩
  · intro i
    exact (hcurrent.trans hid.symm).symm ▸ h.current_iff i
  · intro i hi
    exact h.flag i (by rw [hid,← hcurrent]; exact hi)
  · intro i hi
    exact h.queued i (hwaiting ▸ hi)
  · intro hs
    exact absurd ((haw _ hcurrent).2.symm.trans hs) Bool.false_ne_true
  · intro hfree
    rcases h.freed hfree with hs | ⟨_,hends⟩
    · exact absurd ((haw _ hid).2.symm.trans hs) Bool.false_ne_true
    · exact .inr ⟨(haw _ hcurrent).1,hends⟩

/-- What is known of a generation that the worker has taken from the channel. -/
theorem InStep.taken (h : s.InStep) {id : ℕ} {gen : Generation}
    (hw : s.worker = .received id gen) :
    s.calls id = some .queued ∧ s.tokenCancelled id = false ∧ s.freed = false ∧
      id ∉ s.channel.filterMap Command.generation := by
  have hwaiting : s.waiting = id :: s.channel.filterMap Command.generation := by
    rw [waiting,hw]
    rfl
  have hqueued := h.queued id (by rw [hwaiting]; exact .head _)
  refine ⟨hqueued,h.pending id (.inr (.inr hqueued)),?_,?_⟩
  · by_contra hfree
    rcases h.freed (by simpa using hfree) with hs | ⟨haw,_⟩
    · rw [hw] at hs
      cases hs
    · rw [hw] at haw
      cases haw
  · have hnodup := h.nodup
    rw [hwaiting] at hnodup
    exact (List.nodup_cons.mp hnodup).1

/-- The generation that was taken is started, or not: the worker leaves the channel alone
and cannot have been told to end. -/
theorem InStep.leave (h : s.InStep) {id : ℕ} {gen : Generation} (hw : s.worker = .received id gen)
    {stage : Stage} {w : Worker} {cancel : Bool}
    (hstage : stage = .running ∧ w.current = some id ∧ cancel = false ∨
      stage = .replied ∧ w.current = none)
    (haw : w.awaited = none) (hstopped : w.isStopped = false) :
    { s.setCall id stage with worker := w, cancel }.InStep := by
  obtain ⟨hqueued,htoken,hfree,hnot⟩ := h.taken hw
  have hidle : ∀ i, s.calls i ≠ some .running := by
    intro i hi
    have := (h.current_iff i).mpr hi
    rw [hw] at this
    cases this
  have hmem : ∀ i, i ∈ s.channel.filterMap Command.generation → i ≠ id ∧ i ∈ s.waiting := by
    intro i hi
    refine ⟨fun heq => hnot (heq ▸ hi),?_⟩
    rw [waiting]
    exact List.mem_append_right _ hi
  have hwaiting : { s.setCall id stage with worker := w, cancel }.waiting =
      s.channel.filterMap Command.generation := by
    rw [waiting,haw]
    rfl
  refine ⟨?_,?_,?_,?_,?_,?_,h.sent,?_⟩
  · intro i
    rw [setCall_calls]
    by_cases hi : i = id
    · rw [if_pos hi,hi]
      rcases hstage with ⟨rfl,hcurrent,_⟩ | ⟨rfl,hcurrent⟩
      · exact iff_of_true hcurrent rfl
      · exact iff_of_false (by rw [hcurrent]; exact nofun) nofun
    · rw [if_neg hi]
      refine iff_of_false ?_ (hidle i)
      rcases hstage with ⟨_,hcurrent,_⟩ | ⟨_,hcurrent⟩
      · rw [hcurrent]
        exact fun heq => hi (Option.some.inj heq).symm
      · rw [hcurrent]
        exact nofun
  · intro i hi
    rcases hstage with ⟨_,hcurrent,rfl⟩ | ⟨_,hcurrent⟩
    · cases hcurrent.symm.trans hi
      refine iff_of_false Bool.false_ne_true ?_
      rintro (hc | hc)
      · exact absurd (htoken.symm.trans hc) Bool.false_ne_true
      · exact absurd (hfree.symm.trans hc) Bool.false_ne_true
    · cases hcurrent.symm.trans hi
  · intro i hi
    rw [hwaiting] at hi
    rw [setCall_calls,if_neg (hmem i hi).1]
    exact h.queued i (hmem i hi).2
  · rw [hwaiting]
    exact (List.nodup_append.mp h.nodup).2.1
  · intro i hi
    rw [Pending,setCall_calls] at hi
    by_cases hid : i = id
    · rcases hstage with ⟨rfl,_⟩ | ⟨rfl,_⟩
      · simp [hid] at hi
      · simp [hid] at hi
    · rw [if_neg hid] at hi
      exact h.pending i hi
  · intro hs
    exact absurd (hstopped.symm.trans hs) Bool.false_ne_true
  · intro hc
    exact absurd (hfree.symm.trans hc) Bool.false_ne_true

theorem InStep.receive (h : s.InStep) (hidle : s.worker = .idle) : s.receive.InStep := by
  have hnone : ∀ i, s.calls i ≠ some .running := by
    intro i hi
    have := (h.current_iff i).mpr hi
    rw [hidle] at this
    cases this
  have hends : s.freed = true → s.Ending := by
    intro hfree
    rcases h.freed hfree with hs | hends
    · rw [hidle] at hs
      cases hs
    · exact hends
  have hqueued := h.queued
  have hnodup := h.nodup
  rw [waiting,hidle] at hqueued hnodup
  unfold Engine.receive
  cases hchannel : s.channel with
  | nil => exact h
  | cons cmd rest =>
    rw [hchannel] at hqueued hnodup
    have hbefore : s.freed = true →
        ∀ x ∈ (cmd :: rest).takeWhile (fun cmd => !cmd.isShutdown), x.generation = none :=
      fun hfree => hchannel ▸ (hends hfree).2.1
    have hafter : s.freed = true → s.shutdownSent = true →
        ∃ x ∈ cmd :: rest, x.isShutdown = true := fun hfree => hchannel ▸ (hends hfree).2.2
    cases cmd with
    | generate id gen =>
      refine ⟨?_,nofun,hqueued,hnodup,h.pending,nofun,h.sent,?_⟩
      · exact fun i => iff_of_false nofun (hnone i)
      · intro hfree
        have hgen := hbefore hfree _ (.head _)
        cases hgen
    | other =>
      have hcurrent : ∀ i, s.worker.current ≠ some i := by
        rw [hidle]
        exact nofun
      refine ⟨h.current_iff,h.flag,?_,?_,h.pending,?_,h.sent,?_⟩
      · rw [waiting,hidle]
        exact hqueued
      · rw [waiting,hidle]
        exact hnodup
      · rw [hidle]
        exact nofun
      · intro hfree
        refine .inr ⟨(hends hfree).1,fun x hx => hbefore hfree x (.tail _ hx),fun hsent => ?_⟩
        obtain ⟨x,hx,hend⟩ := hafter hfree hsent
        cases hx with
        | head => cases hend
        | tail _ hx => exact ⟨x,hx,hend⟩
    | shutdown =>
      refine ⟨?_,nofun,nofun,List.nodup_nil,h.pending,fun _ => rfl,h.sent,fun _ => .inl rfl⟩
      exact fun i => iff_of_false nofun (hnone i)

theorem InStep.start (h : s.InStep) (loaded : Bool) : (s.start loaded).InStep := by
  unfold Engine.start
  cases hw : s.worker with
  | received id gen =>
    dsimp only
    by_cases hloaded : loaded = true
    · rw [if_pos hloaded]
      cases gen.prefillSteps with
      | error e => exact h.leave hw (.inr ⟨rfl,rfl⟩) rfl rfl
      | ok steps => exact h.leave hw (.inl ⟨rfl,rfl,rfl⟩) rfl rfl
    · rw [if_neg hloaded]
      exact h.leave hw (.inr ⟨rfl,rfl⟩) rfl rfl
  | _ => exact h

theorem InStep.prefillStep (h : s.InStep) (ok : Bool) : (s.prefillStep ok).InStep := by
  unfold Engine.prefillStep
  cases hw : s.worker with
  | prefilling id gen steps =>
    have hid : s.worker.current = some id := by rw [hw]; rfl
    cases ok with
    | true =>
      refine h.advance hid ?_
      split
      · rfl
      · rfl
    | false => exact h.finish hid
  | _ => exact h

theorem InStep.poll (h : s.InStep) (eos : Bool) : (s.poll eos).InStep := by
  unfold Engine.poll
  cases hw : s.worker with
  | polling id gen produced =>
    have hid : s.worker.current = some id := by rw [hw]; rfl
    dsimp only
    by_cases hproduced : produced < gen.maxNew
    · rw [if_pos hproduced]
      by_cases hstop : (s.cancel || eos) = true
      · rw [if_pos hstop]
        exact h.finish hid
      · rw [if_neg hstop]
        exact h.advance hid rfl
    · rw [if_neg hproduced]
      exact h.finish hid
  | _ => exact h

theorem InStep.emit (h : s.InStep) : s.emit.InStep := by
  unfold Engine.emit
  cases hw : s.worker with
  | emitting id gen produced => exact h.advance (by rw [hw]; rfl) rfl
  | _ => exact h

theorem InStep.step (h : s.InStep) (ok : Bool) : (s.step ok).InStep := by
  unfold Engine.step
  cases hw : s.worker with
  | stepping id gen produced =>
    have hid : s.worker.current = some id := by rw [hw]; rfl
    cases ok with
    | true => exact h.advance hid rfl
    | false => exact h.finish hid
  | _ => exact h

/-! ## The other threads -/

theorem InStep.register (h : s.InStep) {id : ℕ} (hcall : s.calls id = some .begun) :
    (s.register id).InStep := by
  have htoken := h.pending id (.inl hcall)
  have hsame : s.register id = s.setCall id .registered := by
    rw [Engine.register,htoken,Bool.or_false]
    rfl
  rw [hsame]
  exact h.setCall nofun (by simp [hcall]) (h.not_waiting (by simp [hcall])) (.inl htoken)

theorem InStep.send (h : s.InStep) {id : ℕ} (hcall : s.calls id = some .registered)
    (hsent : s.freed = true → s.shutdownSent = true) (gen : Generation) :
    (s.send id gen).InStep := by
  have htoken := h.pending id (.inr (.inl hcall))
  have hnot : id ∉ s.waiting := h.not_waiting (by simp [hcall])
  unfold Engine.send
  by_cases hstopped : s.worker.isStopped = true
  · rw [if_pos hstopped]
    exact h.setCall nofun (by simp [hcall]) hnot (.inl htoken)
  · rw [if_neg hstopped]
    have hmoved : (s.setCall id .queued).InStep :=
      h.setCall nofun (by simp [hcall]) hnot (.inl htoken)
    refine hmoved.sendCommand ?_ ?_
    · rintro i ⟨⟩
      exact ⟨by rw [setCall_calls,if_pos rfl],hnot⟩
    · exact fun hfree => .inr (hsent hfree)

theorem InStep.cancelToken (h : s.InStep) {id : ℕ} (ht : s.Timely (.cancelToken id)) :
    (s.cancelToken id).InStep := by
  obtain ⟨hpending,hreplied⟩ := ht
  refine ⟨h.current_iff,?_,h.queued,h.nodup,?_,h.stopped,h.sent,h.freed⟩
  · intro i hi
    change (s.cancel || (s.calls id).any Stage.isRegistered) = true ↔
      Function.update s.tokenCancelled id true i = true ∨ s.freed = true
    have hi : s.worker.current = some i := hi
    by_cases hid : i = id
    · rw [hid] at hi ⊢
      rw [(h.current_iff id).mp hi,Function.update_self]
      simp [Stage.isRegistered]
    · rw [Function.update_of_ne hid]
      have hquiet : (s.calls id).any Stage.isRegistered = false := by
        cases hcall : s.calls id with
        | none => rfl
        | some stage =>
          cases stage with
          | begun => rfl
          | returned => rfl
          | registered => exact absurd (.inr (.inl hcall)) hpending
          | queued => exact absurd (.inr (.inr hcall)) hpending
          | running =>
            have hrun := (h.current_iff id).mpr hcall
            exact absurd (Option.some.inj (hi.symm.trans hrun)) hid
          | replied =>
            rw [hreplied hcall] at hi
            cases hi
      rw [hquiet,Bool.or_false]
      exact h.flag i hi
  · intro i hi
    have hid : i ≠ id := fun heq => hpending (heq ▸ hi)
    change Function.update s.tokenCancelled id true i = false
    rw [Function.update_of_ne hid]
    exact h.pending i hi

theorem InStep.free (h : s.InStep) (hfreed : s.freed = false) (ht : s.Timely .free) :
    { s with cancel := true, freed := true }.InStep := by
  refine ⟨h.current_iff,fun i _ => iff_of_true rfl (.inr rfl),h.queued,h.nodup,h.pending,
    h.stopped,fun _ => rfl,fun _ => .inr ⟨ht.1,?_,?_⟩⟩
  · exact fun cmd hcmd => ht.2 cmd ((List.takeWhile_sublist _).subset hcmd)
  · exact fun hsent => absurd (hfreed.symm.trans (h.sent hsent)) Bool.false_ne_true

theorem InStep.sendShutdown (h : s.InStep) (hfreed : s.freed = true) :
    { s.sendCommand .shutdown with shutdownSent := true }.InStep := by
  have hsend : (s.sendCommand .shutdown).InStep := h.sendCommand nofun (fun _ => .inl rfl)
  have hfreed' : (s.sendCommand .shutdown).freed = s.freed := by
    unfold Engine.sendCommand
    split
    · rfl
    · rfl
  refine ⟨hsend.current_iff,hsend.flag,hsend.queued,hsend.nodup,hsend.pending,hsend.stopped,
    fun _ => hfreed'.trans hfreed,fun hfree => ?_⟩
  rcases hsend.freed hfree with hs | ⟨haw,hbefore,_⟩
  · exact .inl hs
  · refine or_iff_not_imp_left.mpr (fun hs => ⟨haw,hbefore,fun _ => ⟨.shutdown,?_,rfl⟩⟩)
    have hgoes : s.worker.isStopped ≠ true := by
      intro hstopped
      rw [Engine.sendCommand,if_pos hstopped] at hs
      exact hs hstopped
    rw [Engine.sendCommand,if_neg hgoes]
    exact List.mem_append_right _ (.head _)

theorem InStep.next (h : s.InStep) {e : EngineEvent} (he : s.Enabled e) (ht : s.Timely e) :
    (s.next e).InStep := by
  cases e with
  | beginCall id =>
    obtain ⟨hcall,htoken⟩ := he
    exact h.setCall nofun (by simp [hcall]) (h.not_waiting (by simp [hcall])) (.inl htoken)
  | register id => exact h.register he
  | send id gen => exact h.send he ht gen
  | sendOther => exact h.sendCommand nofun (fun _ => .inl rfl)
  | dispose id =>
    rcases he with hcall | ⟨hcall,hstopped⟩
    · exact h.setCall nofun (by simp [hcall]) (h.not_waiting (by simp [hcall])) (.inr (.inr rfl))
    · refine h.setCall nofun (by simp [hcall]) ?_ (.inr (.inr rfl))
      rw [waiting_of_stopped h hstopped]
      exact List.not_mem_nil
  | cancelToken id => exact h.cancelToken ht
  | free => exact h.free he ht
  | sendShutdown => exact h.sendShutdown he.1
  | receive => exact h.receive he.1
  | start loaded => exact h.start loaded
  | prefillStep ok => exact h.prefillStep ok
  | poll eos => exact h.poll eos
  | emit => exact h.emit
  | step ok => exact h.step ok

theorem InStep.initial : InStep {} :=
  ⟨fun _ => iff_of_false nofun nofun,nofun,nofun,List.nodup_nil,fun _ => by simp [Pending],nofun,
    nofun,nofun⟩

end Engine

/-- When every cancellation is timely, each poll of a generation hears of its own and of no
other one. -/
theorem run_heard {es : List EngineEvent} (hr : engine.Run {} es)
    (ht : ∀ p ∈ engine.trail {} es, p.1.Timely p.2) :
    ∀ p ∈ engine.trail {} es, p.1.Heard p.2 := by
  intro p hp
  have hin := hr.mem_trail_of (I := Engine.InStep) (C := Engine.Timely)
    (fun _ _ hs he ht => hs.next he ht) .initial ht hp
  exact hin.1.heard p.2

/-! ## Two runs -/

def shortPrompt : Generation := ⟨[2],16,none⟩

/-- A generation is cancelled when it has emitted a piece; then the model is freed. -/
def cancelledRunning : List EngineEvent :=
  [.beginCall 0,.register 0,.send 0 shortPrompt,.receive,.start true,.prefillStep true,
    .poll false,.emit,.cancelToken 0,.step true,.poll false,.dispose 0,.free,.sendShutdown]

theorem cancelledRunning_heard :
    engine.Run {} cancelledRunning ∧
      ∀ p ∈ engine.trail {} cancelledRunning, p.1.Heard p.2 := by
  have hrun : engine.Run {} cancelledRunning :=
    ⟨⟨rfl,rfl⟩,rfl,rfl,⟨rfl,List.cons_ne_nil _ _⟩,nofun,⟨_,_,_,rfl⟩,⟨_,_,_,rfl⟩,⟨_,_,_,rfl⟩,rfl,
      ⟨_,_,_,rfl⟩,⟨_,_,_,rfl⟩,.inl rfl,rfl,⟨rfl,rfl⟩,trivial⟩
  refine ⟨hrun,run_heard hrun ?_⟩
  simp only [cancelledRunning,Machine.forall_trail_cons]
  refine ⟨trivial,trivial,nofun,trivial,trivial,trivial,trivial,trivial,⟨?_,nofun⟩,trivial,trivial,
    trivial,⟨rfl,List.forall_mem_nil _⟩,trivial,Machine.forall_trail_nil⟩
  rintro (hcall | hcall | hcall)
  · cases hcall
  · cases hcall
  · cases hcall

/-- The token is cancelled when the call has registered and the worker not cleared the flag. -/
def cancelledEarly : List EngineEvent :=
  [.beginCall 0,.register 0,.cancelToken 0,.send 0 shortPrompt,.receive,.start true,
    .prefillStep true,.poll false]

theorem cancelledEarly_not_heard :
    ¬ ∀ es, engine.Run {} es → ∀ p ∈ engine.trail {} es, p.1.Heard p.2 := by
  intro h
  have hrun : engine.Run {} cancelledEarly :=
    ⟨⟨rfl,rfl⟩,rfl,rfl,rfl,⟨rfl,List.cons_ne_nil _ _⟩,nofun,⟨_,_,_,rfl⟩,⟨_,_,_,rfl⟩,trivial⟩
  have hheard := h cancelledEarly hrun _
    (.tail _ (.tail _ (.tail _ (.tail _ (.tail _ (.tail _ (.tail _ (.head _))))))))
    0 shortPrompt 0 rfl (by decide)
  exact (hheard.mp rfl).2 (.inl rfl)

end Rullama.Native
