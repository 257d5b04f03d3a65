import Rullama.Web.Chat

/-! # What a job reads of its conversation

A job that reads its history from the database is to find the finished answers of the jobs
before it.
-/
namespace Rullama.Chat
open Text Transition

/-! ## Rows -/

def Ordered (rows : List Row) : Prop := rows.Pairwise (fun a b => a.messageId < b.messageId)

/-- The answer has its row, and a message of the user stands above it. -/
def Placed (rows : List Row) (id : ℕ) : Prop :=
  (∃ m ∈ rows, m.role = .model ∧ m.messageId = id) ∧
    ∃ u ∈ rows, u.role = .user ∧ u.messageId < id

/-- The messages above a row. -/
def before (rows : List Row) (id : ℕ) : List Row :=
  (spoken rows).filter (fun r => r.messageId < id)

theorem mem_spoken {rows : List Row} {r : Row} (h : r ∈ rows)
    (hrole : r.role = .user ∨ r.role = .model) : r ∈ spoken rows := by
  refine List.mem_filter.mpr ⟨h,?_⟩
  rcases hrole with hrole | hrole <;> rw [hrole] <;> rfl

/-- The message above the answer is cut off as the job's own. -/
theorem take_cut {rows : List Row} {id : ℕ} (h : Ordered rows) (hplaced : Placed rows id) :
    (spoken rows).take (cut (spoken rows) id) = (before rows id).dropLast := by
  obtain ⟨⟨m,hm,hmodel,hid⟩,u,hu,huser,hlt⟩ := hplaced
  have hpair : Ordered (spoken rows) := h.sublist List.filter_sublist
  have hm := mem_spoken hm (.inr hmodel)
  have hu := mem_spoken hu (.inl huser)
  unfold before
  generalize spoken rows = l at hpair hm hu ⊢
  obtain ⟨a,b,rfl⟩ := List.append_of_mem hm
  obtain ⟨-,hmb,hab⟩ := List.pairwise_append.mp hpair
  have ha : ∀ r ∈ a, r.messageId < id := fun r hr => hid ▸ hab r hr m List.mem_cons_self
  have hb : ∀ r ∈ b, id < r.messageId := fun r hr => hid ▸ List.rel_of_pairwise_cons hmb hr
  have hidx : (a ++ m :: b).findIdx? (fun r => r.messageId = id) = some a.length := by
    rw [List.findIdx?_append,List.findIdx?_eq_none_iff.mpr fun r hr =>
      decide_eq_false (ha r hr).ne,List.findIdx?_cons,if_pos (decide_eq_true hid)]
    simp
  have hfilter : (a ++ m :: b).filter (fun r => r.messageId < id) = a := by
    rw [List.filter_append,List.filter_eq_self.mpr fun r hr => decide_eq_true (ha r hr),
      List.filter_cons_of_neg (by simp [hid]),
      List.filter_eq_nil_iff.mpr fun r hr => by simpa using (hb r hr).le,List.append_nil]
  have hmem : u ∈ a := by
    rcases List.mem_append.mp hu with hu | hu
    · exact hu
    · rcases List.mem_cons.mp hu with rfl | hu
      · exact absurd hid hlt.ne
      · exact absurd hlt (hb u hu).asymm
  obtain ⟨i,hi⟩ := Nat.exists_eq_add_one.mpr (List.length_pos_of_mem hmem)
  have hcut : cut (a ++ m :: b) id = i := by rw [cut,hidx,hi]
  rw [hcut,hfilter,List.dropLast_eq_take,hi,Nat.add_sub_cancel,
    List.take_append_of_le_length (by omega)]

/-- Rows keep their places when rows are added below them. -/
structure Grown (n m : ℕ) (f : Row → Row) (new : List Row) : Prop where
  messageId : ∀ r, (f r).messageId = r.messageId
  role : ∀ r, (f r).role = r.role
  ordered : Ordered new
  fresh : ∀ r ∈ new, n ≤ r.messageId ∧ r.messageId < m

section
variable {n m k id : ℕ} {f g : Row → Row} {new more rows : List Row}

theorem grown_id (n m : ℕ) : Grown n m (fun r => r) [] :=
  ⟨fun _ => rfl,fun _ => rfl,List.Pairwise.nil,fun _ hr => by cases hr⟩

theorem grown_edit (n m id : ℕ) (g : Units → Units) :
    Grown n m (fun r => if r.messageId = id then { r with content := g r.content } else r) [] := by
  refine ⟨fun r => ?_,fun r => ?_,List.Pairwise.nil,fun _ hr => by cases hr⟩
  · split <;> rfl
  · split <;> rfl

theorem Grown.placed (h : Grown n m f new) (hplaced : Placed rows id) :
    Placed (rows.map f ++ new) id := by
  obtain ⟨⟨a,ha,hmodel,hid⟩,u,hu,huser,hlt⟩ := hplaced
  exact ⟨⟨f a,List.mem_append_left _ (List.mem_map_of_mem ha),(h.role a).trans hmodel,
      (h.messageId a).trans hid⟩,
    f u,List.mem_append_left _ (List.mem_map_of_mem hu),(h.role u).trans huser,
      (h.messageId u).trans_lt hlt⟩

theorem Grown.before (h : Grown n m f new) (hid : id ≤ n) :
    before (rows.map f ++ new) id = (before rows id).map f := by
  have hnew : (spoken new).filter (fun r => r.messageId < id) = [] := by
    rw [List.filter_eq_nil_iff]
    intro r hr
    have hfresh := h.fresh r (List.mem_of_mem_filter hr)
    simp only [decide_eq_true_eq,not_lt]
    omega
  have hspoken : spoken (rows.map f) = (spoken rows).map f := by
    rw [spoken,List.filter_map]
    refine congrArg (List.map f) (List.filter_congr fun r _ => ?_)
    rw [Function.comp_apply,h.role]
  rw [Chat.before,Chat.before,spoken,List.filter_append,List.filter_append,← spoken,← spoken,hnew,
    List.append_nil,hspoken,List.filter_map]
  refine congrArg (List.map f) (List.filter_congr fun r _ => ?_)
  rw [Function.comp_apply,h.messageId]

theorem Grown.ordered_append (h : Grown n m f new) (hle : n ≤ m) (hrows : Ordered rows)
    (hlt : ∀ r ∈ rows, r.messageId < n) :
    Ordered (rows.map f ++ new) ∧ ∀ r ∈ rows.map f ++ new, r.messageId < m := by
  have hmap : ∀ r ∈ rows.map f, r.messageId < n := by
    intro r hr
    obtain ⟨q,hq,rfl⟩ := List.mem_map.mp hr
    rw [h.messageId]
    exact hlt q hq
  refine ⟨List.pairwise_append.mpr ⟨List.pairwise_map.mpr (hrows.imp fun hab => ?_),h.ordered,
    fun r hr r' hr' => (hmap r hr).trans_le (h.fresh r' hr').1⟩,fun r hr => ?_⟩
  · rwa [h.messageId,h.messageId]
  · rcases List.mem_append.mp hr with hr | hr
    · exact (hmap r hr).trans_le hle
    · exact (h.fresh r hr).2

theorem Grown.map (h : Grown n m f new) (hid : ∀ r, (g r).messageId = r.messageId)
    (hrole : ∀ r, (g r).role = r.role) : Grown n m (g ∘ f) (new.map g) := by
  refine ⟨fun r => (hid _).trans (h.messageId r),fun r => (hrole _).trans (h.role r),
    List.pairwise_map.mpr (h.ordered.imp fun hab => ?_),fun r hr => ?_⟩
  · rwa [hid,hid]
  · obtain ⟨q,hq,rfl⟩ := List.mem_map.mp hr
    rw [hid]
    exact h.fresh q hq

theorem Grown.trans (h : Grown n m f new) (h' : Grown m k g more) (hle : n ≤ m) (hle' : m ≤ k) :
    Grown n k (g ∘ f) (new.map g ++ more) := by
  obtain ⟨hordered,hlt⟩ := h'.ordered_append hle' h.ordered fun r hr => (h.fresh r hr).2
  refine ⟨fun r => (h'.messageId _).trans (h.messageId r),fun r => (h'.role _).trans (h.role r),
    hordered,fun r hr => ⟨?_,hlt r hr⟩⟩
  rcases List.mem_append.mp hr with hr | hr
  · obtain ⟨q,hq,rfl⟩ := List.mem_map.mp hr
    rw [h'.messageId]
    exact (h.fresh q hq).1
  · exact hle.trans (h'.fresh r hr).1

end

/-! ## Who still writes -/

namespace Engine
variable {s s' : Engine}

/-- The jobs that wait, in the queue or as they are stored. -/
def waiting (s : Engine) : List Job :=
  s.manifest ++ s.pending.flatten ++ s.loaded ++ s.queue.filter (fun j => j.status = .queued)

/-- A job that waits or runs writes there. -/
def Has (s : Engine) (t : Target) : Prop :=
  (∃ j ∈ s.waiting, j.target = t) ∨ s.target = some t

/-- Where the messages that are being sent will have their answers. -/
def pipeline (s : Engine) : List Target :=
  s.sends.filterMap (fun d => d.modelMsgId.map (Target.mk d.convId))

def Known (s : Engine) (t : Target) : Prop := s.Has t ∨ t ∈ s.pipeline

/-- The row is written now or later. -/
def Writes (s : Engine) (t : Target) : Prop := s.Known t ∨ s.resumed = some t

/-- Nobody will write the row, and it is on the disk. -/
structure Settled (s : Engine) (convId : ℕ) (r : Row) : Prop where
  old : r.messageId < s.nextId
  finished : ¬ s.Writes ⟨convId,r.messageId⟩
  flushed : r.content = r.flushed

/-- Rows are added below the others, and settled ones stay as they are. -/
def Grows (s s' : Engine) : Prop :=
  ∀ c rows', s'.rows c = some rows' → ∃ rows f new, s.rows c = some rows ∧
    rows' = rows.map f ++ new ∧ Grown s.nextId s'.nextId f new ∧
      ∀ r, s.Settled c r → f r = r

structure Step (s s' : Engine) : Prop where
  grows : Grows s s'
  le : s.nextId ≤ s'.nextId
  writes : ∀ t, s'.Writes t → s.Writes t ∨ s.nextId ≤ t.modelMsgId

theorem Step.settled (h : Step s s') {c : ℕ} {r : Row} (hr : s.Settled c r) : s'.Settled c r :=
  ⟨hr.old.trans_le h.le,fun hw => (h.writes _ hw).elim hr.finished hr.old.not_ge,hr.flushed⟩

theorem Step.trans {s'' : Engine} (h : Step s s') (h' : Step s' s'') : Step s s'' := by
  refine ⟨fun c rows'' hrows'' => ?_,h.le.trans h'.le,fun t ht => ?_⟩
  · obtain ⟨rows',g,more,hrows',rfl,hg,hsettled'⟩ := h'.grows c rows'' hrows''
    obtain ⟨rows,f,new,hrows,rfl,hf,hsettled⟩ := h.grows c rows' hrows'
    refine ⟨rows,g ∘ f,new.map g ++ more,hrows,?_,hf.trans hg h.le h'.le,fun r hr => ?_⟩
    · rw [List.map_append,List.map_map,List.append_assoc]
    · rw [Function.comp_apply,hsettled r hr,hsettled' r (h.settled hr)]
  · rcases h'.writes t ht with ht | hle
    · exact h.writes t ht
    · exact .inr (h.le.trans hle)

theorem Grows.of_rows (h : ∀ c rows, s'.rows c = some rows → s.rows c = some rows) :
    Grows s s' := fun c rows' hrows' =>
  ⟨rows',fun r => r,[],h c rows' hrows',by simp,grown_id _ _,fun _ _ => rfl⟩

theorem Step.refl (s : Engine) : Step s s :=
  ⟨.of_rows fun _ _ h => h,le_rfl,fun _ ht => .inl ht⟩

/-- The rows of one conversation change. -/
theorem Grows.of_update {c₀ : ℕ} {g : List Row → List Row} {f : Row → Row} {new : List Row}
    (hrows : s'.rows = Function.update s.rows c₀ ((s.rows c₀).map g))
    (hg : ∀ rows, g rows = rows.map f ++ new) (hf : Grown s.nextId s'.nextId f new)
    (hsettled : ∀ r, s.Settled c₀ r → f r = r) : Grows s s' := by
  intro c rows' hrows'
  rw [hrows] at hrows'
  by_cases hc : c = c₀
  · subst hc
    rw [Function.update_self,Option.map_eq_some_iff] at hrows'
    obtain ⟨rows,hrows,rfl⟩ := hrows'
    exact ⟨rows,f,new,hrows,hg rows,hf,hsettled⟩
  · rw [Function.update_of_ne hc] at hrows'
    exact ⟨rows',fun r => r,[],hrows',by simp,grown_id _ _,fun _ _ => rfl⟩

/-- All rows change, but not those that are on the disk. -/
theorem Grows.of_map (h : Grows s s') {g : Row → Row} (hid : ∀ r, (g r).messageId = r.messageId)
    (hrole : ∀ r, (g r).role = r.role) (hflushed : ∀ r : Row, r.content = r.flushed → g r = r) :
    Grows s { s' with rows := fun c => (s'.rows c).map (List.map g) } := by
  intro c rows'' hrows''
  obtain ⟨rows',hrows',rfl⟩ := Option.map_eq_some_iff.mp hrows''
  obtain ⟨rows,f,new,hrows,rfl,hf,hsettled⟩ := h c rows' hrows'
  refine ⟨rows,g ∘ f,new.map g,hrows,by rw [List.map_append,List.map_map],hf.map hid hrole,
    fun r hr => ?_⟩
  rw [Function.comp_apply,hsettled r hr,hflushed r hr.flushed]

theorem Grows.flush (h : Grows s s') : Grows s s'.flush :=
  h.of_map (fun _ => rfl) (fun _ => rfl) fun _ hr => congrArg (Row.mk _ _ _) hr

theorem grows_reopen (s : Engine) : Grows s s.reopen :=
  (Step.refl s).grows.of_map (fun _ => rfl) (fun _ => rfl) fun _ hr =>
    congrArg (Row.mk _ _ · _) hr.symm

theorem grows_edit {t : Target} (ht : s.Writes t) (g : Units → Units) : Grows s (s.edit t g) := by
  refine .of_update rfl (fun rows => (List.append_nil _).symm) (grown_edit _ _ t.modelMsgId g)
    fun r hr => if_neg fun hid => hr.finished ?_
  rw [hid]
  exact ht

theorem grows_write {t : Target} (ht : s.Writes t) (u : Update) : Grows s (s.write t u) := by
  cases u with
  | append delta => exact grows_edit ht (· ++ delta)
  | setContent content => exact (grows_edit ht fun _ => content).flush

theorem grows_insert (convId : ℕ) (role : Role) (content : Units) :
    Grows s (s.insert convId role content) := by
  refine Grows.flush (.of_update (f := fun r => r) rfl (fun rows => by rw [List.map_id' rows])
    ⟨fun _ => rfl,fun _ => rfl,List.pairwise_singleton _ _,
      List.forall_mem_singleton.mpr ⟨le_rfl,Nat.lt_succ_self _⟩⟩ fun _ _ => rfl)

/-! ## What holds in every run -/

structure Inv (s : Engine) : Prop where
  ordered : ∀ c rows, s.rows c = some rows →
    Ordered rows ∧ ∀ r ∈ rows, r.messageId < s.nextId
  old : ∀ t, s.Known t → t.modelMsgId < s.nextId
  placed : ∀ t, s.Known t → ∀ rows, s.rows t.convId = some rows → Placed rows t.modelMsgId
  same : ∀ t u, s.Known t → s.Known u → t.modelMsgId = u.modelMsgId → t = u
  asked : ∀ d ∈ s.sends, ∀ rows, s.rows d.convId = some rows → ∃ u ∈ rows, u.role = .user
  /-- the answers are asked for, and their jobs put into the queue, in order -/
  pipeline : s.pipeline.Pairwise (fun t u => t.modelMsgId < u.modelMsgId)
  coming : ∀ t ∈ s.pipeline, ∀ u, s.Has u → u.modelMsgId < t.modelMsgId
  queue : ∀ j ∈ s.queue, j.status = .queued ∨ s.target = some j.target
  loaded : ∀ j ∈ s.loaded, j.status = .queued
  stored : ∀ t, s.stored = some t → s.target = some t ∨ s.resumed = some t

/-- What is kept when only the rows of an answer are new. -/
theorem Inv.of_step (h : Inv s) (hstep : Step s s')
    (hknown : ∀ t, s'.Known t → s.Known t ∨ s.nextId ≤ t.modelMsgId)
    (hnew : ∀ t, s'.Known t → s.nextId ≤ t.modelMsgId → t.modelMsgId < s'.nextId ∧
      (∀ u, s'.Known u → s.nextId ≤ u.modelMsgId → u = t) ∧
      ∀ rows, s'.rows t.convId = some rows → Placed rows t.modelMsgId)
    (hasked : ∀ d ∈ s'.sends, (∃ d₀ ∈ s.sends, d₀.convId = d.convId) ∨
      ∀ rows, s'.rows d.convId = some rows → ∃ u ∈ rows, u.role = .user)
    (hpipeline : s'.pipeline.Pairwise (fun t u => t.modelMsgId < u.modelMsgId))
    (hcoming : ∀ t ∈ s'.pipeline, ∀ u, s'.Has u → u.modelMsgId < t.modelMsgId)
    (hqueue : ∀ j ∈ s'.queue, j.status = .queued ∨ s'.target = some j.target)
    (hloaded : ∀ j ∈ s'.loaded, j.status = .queued)
    (hstored : ∀ t, s'.stored = some t → s'.target = some t ∨ s'.resumed = some t) : Inv s' := by
  refine ⟨fun c rows' hrows' => ?_,fun t ht => ?_,fun t ht rows' hrows' => ?_,
    fun t u ht hu htu => ?_,fun d hd rows' hrows' => ?_,hpipeline,hcoming,hqueue,hloaded,hstored⟩
  · obtain ⟨rows,f,new,hrows,rfl,hf,-⟩ := hstep.grows c rows' hrows'
    obtain ⟨hordered,hlt⟩ := h.ordered c rows hrows
    exact hf.ordered_append hstep.le hordered hlt
  · rcases hknown t ht with hk | hle
    · exact (h.old t hk).trans_le hstep.le
    · exact (hnew t ht hle).1
  · rcases hknown t ht with hk | hle
    · obtain ⟨rows,f,new,hrows,rfl,hf,-⟩ := hstep.grows _ rows' hrows'
      exact hf.placed (h.placed t hk rows hrows)
    · exact (hnew t ht hle).2.2 rows' hrows'
  · rcases hknown t ht with hk | hle
    · rcases hknown u hu with hk' | hle
      · exact h.same t u hk hk' htu
      · exact absurd (htu ▸ h.old t hk) hle.not_gt
    · exact ((hnew t ht hle).2.1 u hu (htu ▸ hle)).symm
  · rcases hasked d hd with ⟨d₀,hd₀,hconv⟩ | hasked
    · obtain ⟨rows,f,new,hrows,rfl,hf,-⟩ := hstep.grows _ rows' hrows'
      obtain ⟨u,hu,huser⟩ := h.asked d₀ hd₀ rows (hconv ▸ hrows)
      exact ⟨f u,List.mem_append_left _ (List.mem_map_of_mem hu),(hf.role u).trans huser⟩
    · exact hasked rows' hrows'

/-- Nothing is added. -/
theorem Inv.quiet (h : Inv s) (hgrows : Grows s s') (hnext : s'.nextId = s.nextId)
    (hhas : ∀ t, s'.Has t → s.Has t) (hsends : s'.sends.Sublist s.sends)
    (hresumed : ∀ t, s'.resumed = some t → s.Writes t)
    (hqueue : ∀ j ∈ s'.queue, j.status = .queued ∨ s'.target = some j.target)
    (hloaded : ∀ j ∈ s'.loaded, j.status = .queued)
    (hstored : ∀ t, s'.stored = some t → s'.target = some t ∨ s'.resumed = some t) :
    Step s s' ∧ Inv s' := by
  have hpipeline : s'.pipeline.Sublist s.pipeline := hsends.filterMap _
  have hknown : ∀ t, s'.Known t → s.Known t :=
    fun t ht => ht.imp (hhas t) (hpipeline.subset ·)
  have hstep : Step s s' := by
    refine ⟨hgrows,hnext.ge,fun t ht => .inl ?_⟩
    rcases ht with ht | ht
    · exact .inl (hknown t ht)
    · exact hresumed t ht
  refine ⟨hstep,h.of_step hstep (fun t ht => .inl (hknown t ht)) (fun t ht hle => ?_)
    (fun d hd => .inl ⟨d,hsends.subset hd,rfl⟩) (h.pipeline.sublist hpipeline)
    (fun t ht u hu => h.coming t (hpipeline.subset ht) u (hhas u hu)) hqueue hloaded hstored⟩
  exact absurd (h.old t (hknown t ht)) hle.not_gt

/-! ## Steps -/

theorem mem_waiting {j : Job} : j ∈ s.waiting ↔ (j ∈ s.manifest ∨ ∃ l ∈ s.pending, j ∈ l) ∨
    j ∈ s.loaded ∨ j ∈ s.queue ∧ j.status = .queued := by
  simp [waiting,or_assoc]

theorem has_of_waiting {j : Job} {t : Target} (hj : j ∈ s.waiting) (ht : j.target = t) : s.Has t :=
  .inl ⟨j,hj,ht⟩

theorem Inv.has_of_queue (h : Inv s) {j : Job} {t : Target} (hj : j ∈ s.queue)
    (ht : j.target = t) : s.Has t := by
  rcases h.queue j hj with hj' | hj'
  · exact has_of_waiting (mem_waiting.mpr (.inr (.inr ⟨hj,hj'⟩))) ht
  · exact .inr (ht ▸ hj')

/-- A new queue is stored, perhaps with another job in the pump. -/
theorem Inv.commitQueue (h : Inv s) {queue loaded : List Job}
    {running : Option (Job × Option (List Message))} {stored : Option Target}
    (hnew : ∀ j ∈ queue, s.Has j.target) (hloaded : loaded ⊆ s.loaded)
    (hrunning : ∀ p, running = some p → s.Has p.1.target)
    (hqueue : ∀ j ∈ queue, j.status = .queued ∨ running.map (·.1.target) = some j.target)
    (hstored : ∀ t, stored = some t → running.map (·.1.target) = some t ∨ s.resumed = some t) :
    Step s { s.commitQueue queue with running, stored, loaded } ∧
      Inv { s.commitQueue queue with running, stored, loaded } := by
  refine h.quiet (.of_rows fun _ _ hrows => hrows) rfl (fun t ht => ?_) (.refl _)
    (fun t ht => .inr ht) hqueue (fun j hj => h.loaded j (hloaded hj)) hstored
  rcases ht with ⟨j,hj,rfl⟩ | ht
  · rcases mem_waiting.mp hj with (hj | ⟨l,hl,hj⟩) | hj | ⟨hj,-⟩
    · exact has_of_waiting (mem_waiting.mpr (.inl (.inl hj))) rfl
    · rcases List.mem_append.mp hl with hl | hl
      · exact has_of_waiting (mem_waiting.mpr (.inl (.inr ⟨l,hl,hj⟩))) rfl
      · rw [List.mem_singleton.mp hl] at hj
        exact hnew j (List.mem_of_mem_filter hj)
    · exact has_of_waiting (mem_waiting.mpr (.inr (.inl (hloaded hj)))) rfl
    · exact hnew j hj
  · obtain ⟨p,hp,rfl⟩ := Option.map_eq_some_iff.mp ht
    exact hrunning p hp

theorem has_of_running {p : Job × Option (List Message)} (hp : s.running = some p) :
    s.Has p.1.target := by
  refine .inr ?_
  rw [target,hp]
  rfl

theorem start_next (h : Inv s) (hrunning : s.running = none) : Step s s.start ∧ Inv s.start := by
  have htarget : s.target = none := congrArg _ hrunning
  unfold start
  split
  · exact ⟨.refl s,h⟩
  · rename_i j hj
    have hmem := List.mem_of_find?_eq_some hj
    refine h.commitQueue (fun k hk => ?_) (List.Subset.refl _) (fun p hp => ?_) (fun k hk => ?_)
      (fun t ht => ?_)
    · obtain ⟨q,hq,rfl⟩ := List.mem_map.mp hk
      refine h.has_of_queue hq ?_
      split <;> rfl
    · rw [← Option.some.inj hp]
      exact h.has_of_queue hmem rfl
    · obtain ⟨q,hq,rfl⟩ := List.mem_map.mp hk
      split
      · rename_i hid
        exact .inr (congrArg some (h.same j.target q.target (.inl (h.has_of_queue hmem rfl))
          (.inl (h.has_of_queue hq rfl)) hid.symm))
      · refine (h.queue q hq).imp_right fun hq' => ?_
        rw [htarget] at hq'
        cases hq'
    · refine (h.stored t ht).imp_left fun ht => ?_
      rw [htarget] at ht
      cases ht

theorem finish_next (h : Inv s) : Step s s.finish ∧ Inv s.finish := by
  unfold finish
  split
  · exact ⟨.refl s,h⟩
  · rename_i j history hrunning
    refine h.commitQueue (fun k hk => h.has_of_queue (List.mem_of_mem_filter hk) rfl)
      (List.Subset.refl _) (fun p hp => by cases hp) (fun k hk => .inl ?_) (fun t ht => by cases ht)
    obtain ⟨hk,hid⟩ := List.mem_filter.mp hk
    rcases h.queue k hk with hk | hk
    · exact hk
    · rw [target,hrunning] at hk
      exact absurd (congrArg Target.modelMsgId (Option.some.inj hk)).symm (of_decide_eq_true hid)

theorem dequeue_next (h : Inv s) (convId : ℕ) :
    Step s (s.dequeue convId) ∧ Inv (s.dequeue convId) := by
  unfold dequeue
  split
  · exact ⟨.refl s,h⟩
  · split
    · exact h.commitQueue (fun k hk => h.has_of_queue (List.mem_of_mem_filter hk) rfl)
        (List.Subset.refl _) (fun p hp => has_of_running hp)
        (fun k hk => h.queue k (List.mem_of_mem_filter hk)) h.stored
    · exact ⟨.refl s,h⟩

theorem bootQueue_next (h : Inv s) (digest : Units) (convIds : ℕ → Bool) :
    Step s (s.bootQueue digest convIds) ∧ Inv (s.bootQueue digest convIds) := by
  unfold bootQueue
  dsimp only
  split
  · refine h.quiet (.of_rows fun _ _ hrows => hrows) rfl (fun t ht => ht.imp_left ?_) (.refl _)
      (fun t ht => .inr ht) h.queue (fun j hj => by cases hj) h.stored
    rintro ⟨j,hj,rfl⟩
    refine ⟨j,?_,rfl⟩
    rcases mem_waiting.mp hj with hj | hj | hj
    · exact mem_waiting.mpr (.inl hj)
    · cases hj
    · exact mem_waiting.mpr (.inr (.inr hj))
  · refine h.commitQueue (fun j hj => ?_) (List.nil_subset _) (fun p hp => has_of_running hp)
      (fun j hj => ?_) h.stored
    · rcases List.mem_append.mp hj with hj | hj
      · exact h.has_of_queue hj rfl
      · exact has_of_waiting (mem_waiting.mpr (.inr (.inl (List.mem_of_mem_filter hj)))) rfl
    · rcases List.mem_append.mp hj with hj | hj
      · exact h.queue j hj
      · exact .inl (h.loaded j (List.mem_of_mem_filter hj))

theorem pipeline_cons {d : Send} {sends : List Send} (hsends : s.sends = d :: sends) :
    s.pipeline = (d.modelMsgId.map (Target.mk d.convId)).toList ++
      pipeline { s with sends } := by
  rw [pipeline,hsends,List.filterMap_cons]
  cases d.modelMsgId <;> rfl

theorem pipeline_append (sends : List Send) (d : Send) :
    pipeline { s with sends := sends ++ [d] } =
      pipeline { s with sends } ++ (d.modelMsgId.map (Target.mk d.convId)).toList := by
  rw [pipeline,List.filterMap_append,List.filterMap_cons]
  cases d.modelMsgId <;> rfl

theorem rows_insert {convId : ℕ} {role : Role} {content : Units} {rows' : List Row}
    (h : (s.insert convId role content).rows convId = some rows') :
    ∃ rows, s.rows convId = some rows ∧
      rows' = rows.map Row.flush ++ [⟨s.nextId,role,content,content⟩] := by
  obtain ⟨rows',hrows',rfl⟩ := Option.map_eq_some_iff.mp h
  obtain ⟨rows,hrows,rfl⟩ := Option.map_eq_some_iff.mp
    ((Function.update_self (f := s.rows) convId _).symm.trans hrows')
  exact ⟨rows,hrows,List.map_append⟩

theorem send_next (h : Inv s) (convId : ℕ) (userText : Units) (priorMessages : List Message)
    (modelDigest : Units) :
    Step s (s.send convId userText priorMessages modelDigest) ∧
      Inv (s.send convId userText priorMessages modelDigest) := by
  have hpipeline : (s.send convId userText priorMessages modelDigest).pipeline = s.pipeline :=
    (pipeline_append s.sends _).trans (List.append_nil _)
  have hknown : ∀ t, (s.send convId userText priorMessages modelDigest).Known t → s.Known t :=
    fun t ht => ht.imp_right fun ht => hpipeline ▸ ht
  have hstep : Step s (s.send convId userText priorMessages modelDigest) :=
    ⟨grows_insert convId .user userText,Nat.le_succ _,
      fun t ht => .inl (ht.imp_left (hknown t))⟩
  refine ⟨hstep,h.of_step hstep (fun t ht => .inl (hknown t ht))
    (fun t ht hle => absurd (h.old t (hknown t ht)) hle.not_gt) (fun d hd => ?_)
    (hpipeline ▸ h.pipeline) (hpipeline ▸ h.coming) h.queue h.loaded h.stored⟩
  rcases List.mem_append.mp hd with hd | hd
  · exact .inl ⟨d,hd,rfl⟩
  · refine .inr fun rows hrows => ?_
    rw [List.mem_singleton.mp hd] at hrows
    obtain ⟨rows,-,rfl⟩ := rows_insert hrows
    exact ⟨_,List.mem_append_right _ List.mem_cons_self,rfl⟩

theorem ask_pipeline {d : Send} {sends : List Send} (hsends : s.sends = d :: sends)
    (hid : d.modelMsgId = none) :
    (s.ask d sends).pipeline = s.pipeline ++ [⟨d.convId,s.nextId⟩] := by
  have hcons := pipeline_cons hsends
  rw [hid] at hcons
  rw [hcons]
  exact pipeline_append sends _

theorem ask_known {d : Send} {sends : List Send} (hsends : s.sends = d :: sends)
    (hid : d.modelMsgId = none) {t : Target} (ht : (s.ask d sends).Known t) :
    s.Known t ∨ t = ⟨d.convId,s.nextId⟩ := by
  rcases ht with ht | ht
  · exact .inl (.inl ht)
  · rw [ask_pipeline hsends hid] at ht
    rcases List.mem_append.mp ht with ht | ht
    · exact .inl (.inr ht)
    · exact .inr (List.mem_singleton.mp ht)

/-- The row of the answer is there. -/
theorem ask_next (h : Inv s) {d : Send} {sends : List Send} (hsends : s.sends = d :: sends)
    (hid : d.modelMsgId = none) : Step s (s.ask d sends) ∧ Inv (s.ask d sends) := by
  have hknown : ∀ t, (s.ask d sends).Known t → s.Known t ∨ s.nextId ≤ t.modelMsgId :=
    fun t ht => (ask_known hsends hid ht).imp_right fun ht => (congrArg Target.modelMsgId ht).ge
  have hnew : ∀ t, (s.ask d sends).Known t → s.nextId ≤ t.modelMsgId → t = ⟨d.convId,s.nextId⟩ :=
    fun t ht hle => (ask_known hsends hid ht).resolve_left fun hk => (h.old t hk).not_ge hle
  have hstep : Step s (s.ask d sends) := by
    refine ⟨grows_insert d.convId .model [],Nat.le_succ _,fun t ht => ?_⟩
    rcases ht with ht | ht
    · exact (hknown t ht).imp_left .inl
    · exact .inl (.inr ht)
  refine ⟨hstep,h.of_step hstep hknown (fun t ht hle => ?_) (fun d' hd' => .inl ?_) ?_
    (fun t ht u hu => ?_) h.queue h.loaded h.stored⟩
  · cases hnew t ht hle
    refine ⟨Nat.lt_succ_self _,hnew,fun rows' hrows' => ?_⟩
    obtain ⟨rows,hrows,rfl⟩ := rows_insert hrows'
    obtain ⟨u,hu,huser⟩ := h.asked d (hsends ▸ List.mem_cons_self) rows hrows
    exact ⟨⟨_,List.mem_append_right _ List.mem_cons_self,rfl,rfl⟩,u.flush,
      List.mem_append_left _ (List.mem_map_of_mem hu),huser,(h.ordered _ rows hrows).2 u hu⟩
  · rw [hsends]
    rcases List.mem_append.mp hd' with hd' | hd'
    · exact ⟨d',List.mem_cons_of_mem _ hd',rfl⟩
    · exact ⟨d,List.mem_cons_self,(congrArg Send.convId (List.mem_singleton.mp hd')).symm⟩
  · rw [ask_pipeline hsends hid]
    refine List.pairwise_append.mpr ⟨h.pipeline,List.pairwise_singleton _ _,fun t ht u hu => ?_⟩
    rw [List.mem_singleton.mp hu]
    exact h.old t (.inr ht)
  · rw [ask_pipeline hsends hid] at ht
    rcases List.mem_append.mp ht with ht | ht
    · exact h.coming t ht u hu
    · rw [List.mem_singleton.mp ht]
      exact h.old u (.inl hu)

theorem enqueue_has (h : Inv s) {d : Send} {sends : List Send} {modelMsgId : ℕ} {t : Target}
    (ht : (s.enqueue d sends modelMsgId).Has t) : s.Has t ∨ t = ⟨d.convId,modelMsgId⟩ := by
  have hqueue : ∀ j ∈ s.queue ++ [d.job modelMsgId],
      s.Has j.target ∨ j.target = ⟨d.convId,modelMsgId⟩ := by
    intro j hj
    rcases List.mem_append.mp hj with hj | hj
    · exact .inl (h.has_of_queue hj rfl)
    · rw [List.mem_singleton.mp hj]
      exact .inr rfl
  rcases ht with ⟨j,hj,rfl⟩ | ht
  · rcases mem_waiting.mp hj with (hj | ⟨l,hl,hj⟩) | hj | ⟨hj,-⟩
    · exact .inl (has_of_waiting (mem_waiting.mpr (.inl (.inl hj))) rfl)
    · rcases List.mem_append.mp hl with hl | hl
      · exact .inl (has_of_waiting (mem_waiting.mpr (.inl (.inr ⟨l,hl,hj⟩))) rfl)
      · rw [List.mem_singleton.mp hl] at hj
        exact hqueue j (List.mem_of_mem_filter hj)
    · exact .inl (has_of_waiting (mem_waiting.mpr (.inr (.inl hj))) rfl)
    · exact hqueue j hj
  · exact .inl (.inr ht)

/-- The job is put into the queue. -/
theorem enqueue_next (h : Inv s) {d : Send} {sends : List Send} (hsends : s.sends = d :: sends)
    {modelMsgId : ℕ} (hid : d.modelMsgId = some modelMsgId) :
    Step s (s.enqueue d sends modelMsgId) ∧ Inv (s.enqueue d sends modelMsgId) := by
  have hcons : s.pipeline = ⟨d.convId,modelMsgId⟩ :: pipeline { s with sends } := by
    rw [pipeline_cons hsends,hid]
    rfl
  have hknown : ∀ t, (s.enqueue d sends modelMsgId).Known t → s.Known t := by
    rintro t (ht | ht)
    · rcases enqueue_has h ht with ht | rfl
      · exact .inl ht
      · exact .inr (hcons ▸ List.mem_cons_self)
    · exact .inr (hcons ▸ List.mem_cons_of_mem _ ht)
  have hstep : Step s (s.enqueue d sends modelMsgId) :=
    ⟨.of_rows fun _ _ hrows => hrows,le_rfl,fun t ht => .inl (ht.imp_left (hknown t))⟩
  obtain ⟨hlt,hpair⟩ := List.pairwise_cons.mp (hcons ▸ h.pipeline)
  refine ⟨hstep,h.of_step hstep (fun t ht => .inl (hknown t ht))
    (fun t ht hle => absurd (h.old t (hknown t ht)) hle.not_gt)
    (fun d' hd' => .inl ⟨d',hsends ▸ List.mem_cons_of_mem _ hd',rfl⟩) hpair (fun t ht u hu => ?_)
    (fun j hj => ?_) h.loaded h.stored⟩
  · rcases enqueue_has h hu with hu | rfl
    · exact h.coming t (hcons ▸ List.mem_cons_of_mem _ ht) u hu
    · exact hlt t ht
  · rcases List.mem_append.mp hj with hj | hj
    · exact h.queue j hj
    · rw [List.mem_singleton.mp hj]
      exact .inl rfl

/-- The first of the messages that are being sent goes on. -/
theorem reply_next (h : Inv s) (fails : Bool) : Step s (s.reply fails) ∧ Inv (s.reply fails) := by
  unfold reply
  split
  · exact ⟨.refl s,h⟩
  · rename_i d sends hsends
    cases hid : d.modelMsgId with
    | none =>
      dsimp only
      split
      · exact h.quiet (.of_rows fun _ _ hrows => hrows) rfl (fun t ht => ht)
          (hsends ▸ List.sublist_cons_self _ _) (fun t ht => .inr ht) h.queue h.loaded h.stored
      · exact ask_next h hsends hid
    | some id => exact enqueue_next h hsends hid

theorem write_next (h : Inv s) {t : Target} (ht : s.Writes t) (u : Update) :
    Step s (s.write t u) ∧ Inv (s.write t u) := by
  have hgrows := grows_write ht u
  cases u <;> exact h.quiet hgrows rfl (fun _ ht => ht) (.refl _) (fun _ ht => .inr ht) h.queue
    h.loaded h.stored

theorem kill_next (h : Inv s) (keeps : Bool) : Step s (s.kill keeps) ∧ Inv (s.kill keeps) := by
  have hstored : ∀ t, (if keeps then s.stored else none) = some t → s.stored = some t := by
    cases keeps
    · exact fun t ht => by cases ht
    · exact fun t ht => ht
  refine h.quiet (grows_reopen s) rfl (fun t ht => ?_) (List.nil_sublist _)
    (fun t ht => ?_) (fun j hj => by cases hj) (fun j hj => by cases hj) (fun t ht => .inr ht)
  · rcases ht with ⟨j,hj,rfl⟩ | ht
    · rcases mem_waiting.mp hj with (hj | ⟨l,hl,-⟩) | hj | ⟨hj,-⟩
      · exact has_of_waiting (mem_waiting.mpr (.inl (.inl hj))) rfl
      · cases hl
      · cases hj
      · cases hj
    · cases ht
  · exact (h.stored t (hstored t ht)).imp_left fun ht => .inl (.inr ht)

theorem dequeue_rows (convId : ℕ) : (s.dequeue convId).rows = s.rows := by
  unfold dequeue
  split
  · rfl
  · split <;> rfl

theorem delete_next (h : Inv s) (convId : ℕ) :
    Step s (s.delete convId) ∧ Inv (s.delete convId) := by
  obtain ⟨hstep,hinv⟩ := dequeue_next h convId
  have hrows : ∀ c rows, Function.update s.rows convId none c = some rows →
      (s.dequeue convId).rows c = some rows := by
    intro c rows hrows
    rw [dequeue_rows]
    by_cases hc : c = convId
    · rw [hc,Function.update_self] at hrows
      cases hrows
    · rwa [Function.update_of_ne hc] at hrows
  have hnext : Step (s.dequeue convId) (s.delete convId) ∧ Inv (s.delete convId) :=
    hinv.quiet (Grows.of_rows hrows).flush rfl (fun _ ht => ht) (.refl _) (fun _ ht => .inr ht)
      hinv.queue hinv.loaded hinv.stored
  exact ⟨hstep.trans hnext.1,hnext.2⟩

theorem step_next (h : Inv s) (e : Event) (he : s.enabled e) :
    Step s (s.next e) ∧ Inv (s.next e) := by
  cases e with
  | send convId userText priorMessages modelDigest =>
    exact send_next h convId userText priorMessages modelDigest
  | reply fails => exact reply_next h fails
  | start => exact start_next h he
  | read fails =>
    rw [next,read]
    split
    · rename_i j hrunning
      have htarget : s.target = some j.target := congrArg _ hrunning
      exact h.quiet (.of_rows fun _ _ hrows => hrows) rfl
        (fun t ht => ht.imp_right fun ht => htarget.trans ht) (.refl _) (fun t ht => .inr ht)
        (fun k hk => (h.queue k hk).imp_right fun hk => htarget.symm.trans hk) h.loaded
        (fun t ht => (h.stored t ht).imp_left fun ht => htarget.symm.trans ht)
    · exact ⟨.refl s,h⟩
  | write u =>
    rw [next]
    cases ht : s.target with
    | none => exact ⟨.refl s,h⟩
    | some t => exact write_next h (.inl (.inl (.inr ht))) u
  | finish => exact finish_next h
  | stop convId => exact dequeue_next h convId
  | delete convId => exact delete_next h convId
  | flush =>
    exact h.quiet (Step.refl s).grows.flush rfl (fun t ht => ht) (.refl _) (fun t ht => .inr ht)
      h.queue h.loaded h.stored
  | lose =>
    exact h.quiet (grows_reopen s) rfl (fun t ht => ht) (.refl _) (fun t ht => .inr ht) h.queue
      h.loaded h.stored
  | hide t =>
    refine h.quiet (.of_rows fun _ _ hrows => hrows) rfl (fun t ht => ht) (.refl _)
      (fun t ht => .inr ht) h.queue h.loaded (fun u hu => ?_)
    cases hu
    exact he
  | persist jobs =>
    refine h.quiet (.of_rows fun _ _ hrows => hrows) rfl (fun t ht => ht.imp_left ?_) (.refl _)
      (fun t ht => .inr ht) h.queue h.loaded h.stored
    rintro ⟨j,hj,rfl⟩
    refine ⟨j,?_,rfl⟩
    rcases mem_waiting.mp hj with (hj | ⟨l,hl,hj⟩) | hj
    · exact mem_waiting.mpr (.inl (.inr ⟨jobs,he,hj⟩))
    · exact mem_waiting.mpr (.inl (.inr ⟨l,List.mem_of_mem_erase hl,hj⟩))
    · exact mem_waiting.mpr (.inr hj)
  | kill keeps => exact kill_next h keeps
  | load =>
    refine h.quiet (.of_rows fun _ _ hrows => hrows) rfl (fun t ht => ht.imp_left ?_) (.refl _)
      (fun t ht => .inr ht) h.queue (fun j hj => ?_) h.stored
    · rintro ⟨j,hj,rfl⟩
      rcases mem_waiting.mp hj with hj | hj | hj
      · exact ⟨j,mem_waiting.mpr (.inl hj),rfl⟩
      · obtain ⟨k,hk,rfl⟩ := List.mem_map.mp hj
        exact ⟨k,mem_waiting.mpr (.inl (.inl hk)),rfl⟩
      · exact ⟨j,mem_waiting.mpr (.inr (.inr hj)),rfl⟩
    · obtain ⟨j,-,rfl⟩ := List.mem_map.mp hj
      rfl
  | bootQueue digest convIds => exact bootQueue_next h digest convIds
  | resumedWrite u =>
    rw [next]
    cases ht : s.resumed with
    | none => exact ⟨.refl s,h⟩
    | some t => exact write_next h (.inr ht) u
  | resumedEnd =>
    refine h.quiet (.of_rows fun _ _ hrows => hrows) rfl (fun t ht => ht) (.refl _)
      (fun t ht => by cases ht) h.queue h.loaded (fun t ht => by cases ht)

theorem step_run (h : Inv s) {es : List Event} (hr : engine.Run s es) :
    Step s (engine.exec s es) ∧ Inv (engine.exec s es) := by
  refine hr.invariant (I := fun s' => Step s s' ∧ Inv s') ?_ ⟨.refl s,h⟩
  rintro s' e ⟨hstep,hinv⟩ he
  obtain ⟨hstep',hinv'⟩ := step_next hinv e he
  exact ⟨hstep.trans hstep',hinv'⟩

/-- The first start: there are conversations, but nothing is sent or stored. -/
structure Fresh (s : Engine) : Prop where
  ordered : ∀ c rows, s.rows c = some rows →
    Ordered rows ∧ ∀ r ∈ rows, r.messageId < s.nextId
  manifest : s.manifest = []
  pending : s.pending = []
  stored : s.stored = none
  sends : s.sends = []
  queue : s.queue = []
  running : s.running = none
  resumed : s.resumed = none
  loaded : s.loaded = []

theorem Fresh.inv (h : Fresh s) : Inv s := by
  have hpipeline : s.pipeline = [] := by
    rw [pipeline,h.sends]
    rfl
  have hhas : ∀ t, ¬ s.Has t := by
    rintro t (⟨j,hj,-⟩ | ht)
    · rw [waiting,h.manifest,h.pending,h.loaded,h.queue] at hj
      cases hj
    · rw [target,h.running] at ht
      cases ht
  have hknown : ∀ t, ¬ s.Known t := by
    rintro t (ht | ht)
    · exact hhas t ht
    · rw [hpipeline] at ht
      cases ht
  refine ⟨h.ordered,fun t ht => absurd ht (hknown t),fun t ht => absurd ht (hknown t),
    fun t u ht => absurd ht (hknown t),fun d hd => ?_,?_,fun t ht => ?_,fun j hj => ?_,
    fun j hj => ?_,fun t ht => ?_⟩
  · rw [h.sends] at hd
    cases hd
  · rw [hpipeline]
    exact List.Pairwise.nil
  · rw [hpipeline] at ht
    cases ht
  · rw [h.queue] at hj
    cases hj
  · rw [h.loaded] at hj
    cases hj
  · rw [h.stored] at ht
    cases ht

/-! ## The history -/

theorem priorRows_of_some (h : Inv s) {j : Job} (hj : s.Has j.target) {rows : List Row}
    (hrows : s.rows j.convId = some rows) :
    s.priorRows j = (before rows j.modelMsgId).dropLast := by
  rw [priorRows,hrows]
  exact take_cut (h.ordered _ rows hrows).1 (h.placed _ (.inl hj) rows hrows)

theorem priorRows_grown (h : Inv s) {j : Job} (hj : s.Has j.target) {rows new : List Row}
    {f : Row → Row} (hrows : s.rows j.convId = some rows)
    (hrows' : s'.rows j.convId = some (rows.map f ++ new)) (hf : Grown s.nextId s'.nextId f new)
    (hle : s.nextId ≤ s'.nextId) : s'.priorRows j = (s.priorRows j).map f := by
  obtain ⟨hordered,hlt⟩ := h.ordered _ rows hrows
  have hcut := take_cut (hf.ordered_append hle hordered hlt).1
    (hf.placed (h.placed _ (.inl hj) rows hrows))
  have hid : j.modelMsgId ≤ s.nextId := (h.old _ (.inl hj)).le
  rw [priorRows_of_some h hj hrows,List.map_dropLast,← hf.before hid,priorRows,hrows']
  exact hcut

/-- The answer is still to be written: by the generation that goes on after a reload, or by a
job that waits. -/
def Unfinished (s : Engine) (t : Target) : Prop :=
  s.resumed = some t ∨ ∃ j ∈ s.waiting, j.target = t

theorem mem_priorRows (h : Inv s) {j : Job} (hj : s.Has j.target) {r : Row}
    (hr : r ∈ s.priorRows j) :
    ∃ rows, s.rows j.convId = some rows ∧ r ∈ rows ∧ r.messageId < j.modelMsgId := by
  cases hrows : s.rows j.convId with
  | none =>
    rw [priorRows,hrows] at hr
    simp [spoken] at hr
  | some rows =>
    rw [priorRows_of_some h hj hrows] at hr
    obtain ⟨hr,hlt⟩ := List.mem_filter.mp (List.dropLast_subset _ hr)
    exact ⟨rows,rfl,List.mem_of_mem_filter hr,of_decide_eq_true hlt⟩

theorem settled_of_finished (h : Inv s) {j : Job} (hj : s.target = some j.target) {r : Row}
    (hr : r ∈ s.priorRows j) (hfinished : ¬ s.Unfinished ⟨j.convId,r.messageId⟩)
    (hflushed : r.content = r.flushed) : s.Settled j.convId r := by
  obtain ⟨rows,hrows,hmem,hlt⟩ := mem_priorRows h (.inr hj) hr
  refine ⟨(h.ordered _ rows hrows).2 r hmem,?_,hflushed⟩
  rintro (((hk | ht) | ht) | ht)
  · exact hfinished (.inr hk)
  · rw [hj] at ht
    exact absurd (congrArg Target.modelMsgId (Option.some.inj ht)) hlt.ne'
  · exact absurd (h.coming _ ht _ (.inr hj)) hlt.asymm
  · exact hfinished (.inl ht)

/-! ## Unfinished answers are written -/

theorem find?_queued (h : Inv s) (hrunning : s.running = none) {k : Job} (hk : k ∈ s.queue) :
    ∃ j, s.queue.find? (fun j => j.status = .queued) = some j := by
  rw [← Option.isSome_iff_exists,List.find?_isSome]
  refine ⟨k,hk,?_⟩
  rcases h.queue k hk with hk | hk
  · exact decide_eq_true hk
  · rw [target,hrunning] at hk
    cases hk

/-- The pump comes to every job of the queue. -/
theorem pump_reaches (h : Inv s) (hrunning : s.running = none) {k : Job} (hk : k ∈ s.queue) :
    ∃ fs, engine.Run s fs ∧ (engine.exec s fs).rows = s.rows ∧
      (engine.exec s fs).target = some k.target := by
  obtain ⟨n,hn⟩ : ∃ n, s.queue.length = n := ⟨_,rfl⟩
  induction n using Nat.strong_induction_on generalizing s with
  | _ n ih =>
    obtain ⟨j,hj⟩ := find?_queued h hrunning hk
    have hmem := List.mem_of_find?_eq_some hj
    obtain ⟨-,hinv⟩ := start_next h hrunning
    have hstart : s.start.running = some ({ j with status := .running },none) := by
      rw [start,hj]
    have hstart_rows : s.start.rows = s.rows := by
      rw [start,hj]
      rfl
    by_cases hid : k.modelMsgId = j.modelMsgId
    · have hjk := h.same j.target k.target (.inl (h.has_of_queue hmem rfl))
        (.inl (h.has_of_queue hk rfl)) hid.symm
      refine ⟨[.start],⟨hrunning,trivial⟩,hstart_rows,?_⟩
      change s.start.target = _
      rw [target,hstart,← hjk]
      rfl
    · have hfinish : s.start.finish.queue =
          (s.queue.map (fun k => if k.modelMsgId = j.modelMsgId then
            { k with status := .running } else k)).filter
              (fun k => k.modelMsgId ≠ j.modelMsgId) := by
        rw [finish,hstart,start,hj]
        rfl
      have hfinish_running : s.start.finish.running = none := by
        rw [finish,hstart]
      have hfinish_rows : s.start.finish.rows = s.rows := by
        rw [finish,hstart]
        exact hstart_rows
      have hk' : k ∈ s.start.finish.queue := by
        rw [hfinish]
        exact List.mem_filter.mpr ⟨List.mem_map.mpr ⟨k,hk,if_neg hid⟩,decide_eq_true hid⟩
      have hlt : s.start.finish.queue.length < n := by
        rw [hfinish]
        refine (List.length_filter_lt_length_iff_exists.mpr
          ⟨_,List.mem_map_of_mem hmem,?_⟩).trans_eq ((List.length_map _).trans hn)
        simp
      obtain ⟨fs,hr,hrows,htarget⟩ := ih _ hlt (finish_next hinv).2 hfinish_running hk' rfl
      refine ⟨.start :: .finish :: fs,⟨hrunning,?_,hr⟩,hrows.trans hfinish_rows,htarget⟩
      change s.start.running ≠ none
      rw [hstart]
      exact Option.some_ne_none _

/-- The row can come to have the content. -/
def Reaches (s : Engine) (t : Target) (content : Units) : Prop :=
  ∃ fs rows, engine.Run s fs ∧ (engine.exec s fs).rows t.convId = some rows ∧
    ∀ r ∈ rows, r.messageId = t.modelMsgId → r.content = content

theorem Reaches.of_run {t : Target} {content : Units} (fs : List Event) (hr : engine.Run s fs)
    (h : (engine.exec s fs).Reaches t content) : s.Reaches t content := by
  obtain ⟨gs,rows,hgs,hrows,hcontent⟩ := h
  refine ⟨fs ++ gs,rows,engine.run_append.mpr ⟨hr,hgs⟩,?_,hcontent⟩
  rwa [Machine.exec_append]

theorem reaches_of_write {t : Target} {content : Units} {e : Event} (he : s.enabled e)
    (hnext : s.next e = s.write t (.setContent content)) (hrows : s.rows t.convId ≠ none) :
    s.Reaches t content := by
  obtain ⟨rows,hrows⟩ := Option.ne_none_iff_exists'.mp hrows
  refine ⟨[e],rows.map (fun r => Row.flush
    (if r.messageId = t.modelMsgId then { r with content := content } else r)),⟨he,trivial⟩,?_,?_⟩
  · change (s.next e).rows t.convId = _
    rw [hnext]
    change (Function.update s.rows t.convId _ t.convId).map _ = _
    rw [Function.update_self,hrows,Option.map_some,Option.map_some,List.map_map]
    rfl
  · intro r hr hid
    obtain ⟨q,hq,rfl⟩ := List.mem_map.mp hr
    have hq' : q.messageId = t.modelMsgId := by
      split at hid
      · assumption
      · exact hid
    rw [if_pos hq']
    rfl

theorem reaches_of_target {t : Target} (ht : s.target = some t) (content : Units)
    (hrows : s.rows t.convId ≠ none) : s.Reaches t content := by
  obtain ⟨⟨j,history⟩,hrunning,rfl⟩ := Option.map_eq_some_iff.mp ht
  obtain ⟨history',hread⟩ : ∃ history', (s.read false).running = some (j,some history') := by
    rw [read,hrunning]
    cases history with
    | none => exact ⟨_,rfl⟩
    | some history => exact ⟨history,hrunning⟩
  have hread_rows : (s.read false).rows = s.rows := by
    rw [read]
    split <;> rfl
  refine .of_run [.read false] ⟨trivial,trivial⟩
    (reaches_of_write (e := .write (.setContent content)) ?_ ?_ (hread_rows ▸ hrows))
  · change (s.read false).running.any (fun p => p.2.isSome) = true
    rw [hread]
    rfl
  · change (s.read false).next (.write (.setContent content)) = _
    rw [next,target,hread]
    rfl

theorem reaches_of_queue (h : Inv s) {k : Job} (hk : k ∈ s.queue) (content : Units)
    (hrows : s.rows k.convId ≠ none) : s.Reaches k.target content := by
  cases hrunning : s.running with
  | none =>
    obtain ⟨fs,hr,hfs,htarget⟩ := pump_reaches h hrunning hk
    exact .of_run fs hr (reaches_of_target htarget content (hfs ▸ hrows))
  | some p =>
    obtain ⟨-,hfinish⟩ := finish_next h
    by_cases hid : k.modelMsgId = p.1.modelMsgId
    · have hkp := h.same k.target p.1.target (.inl (h.has_of_queue hk rfl))
        (.inl (has_of_running hrunning)) hid
      exact reaches_of_target (hkp ▸ congrArg _ hrunning) content hrows
    · have hfinish_queue : k ∈ s.finish.queue ∧ s.finish.running = none ∧
          s.finish.rows = s.rows := by
        rw [finish,hrunning]
        exact ⟨List.mem_filter.mpr ⟨hk,decide_eq_true hid⟩,rfl,rfl⟩
      obtain ⟨fs,hr,hfs,htarget⟩ := pump_reaches hfinish hfinish_queue.2.1 hfinish_queue.1
      refine .of_run (.finish :: fs) ⟨?_,hr⟩ (reaches_of_target htarget content ?_)
      · change s.running ≠ none
        rw [hrunning]
        exact Option.some_ne_none _
      · change (engine.exec s.finish fs).rows k.convId ≠ none
        rw [hfs,hfinish_queue.2.2]
        exact hrows

theorem reaches_of_loaded (h : Inv s) {k : Job} (hk : k ∈ s.loaded) (content : Units)
    (hrows : s.rows k.convId ≠ none) : s.Reaches k.target content := by
  have hboot : s.bootQueue [] (fun _ => true) =
      Engine.commitQueue { s with loaded := [] } (s.queue ++ s.loaded) := by
    unfold bootQueue
    dsimp only
    rw [List.filter_eq_self.mpr fun j _ => by simp,if_neg (List.ne_nil_of_mem hk)]
  obtain ⟨-,hinv⟩ := bootQueue_next h [] (fun _ => true)
  refine .of_run [.bootQueue [] (fun _ => true)] ⟨fun _ _ => rfl,trivial⟩
    (reaches_of_queue hinv ?_ content ?_)
  · rw [hboot]
    exact List.mem_append_right _ hk
  · rw [hboot]
    exact hrows

theorem reaches_of_manifest (h : Inv s) {k : Job} (hk : k ∈ s.manifest) (content : Units)
    (hrows : s.rows k.convId ≠ none) : s.Reaches k.target content := by
  obtain ⟨-,hkill⟩ := kill_next h false
  obtain ⟨-,hload⟩ := step_next hkill .load rfl
  refine .of_run [.kill false,.load] ⟨trivial,rfl,trivial⟩
    (reaches_of_loaded hload (List.mem_map_of_mem hk) content fun hnone => hrows ?_)
  exact Option.map_eq_none_iff.mp hnone

theorem Unfinished.reaches (h : Inv s) {t : Target} (ht : s.Unfinished t) (content : Units)
    (hrows : s.rows t.convId ≠ none) : s.Reaches t content := by
  rcases ht with ht | ⟨k,hk,rfl⟩
  · refine reaches_of_write (e := .resumedWrite (.setContent content)) ?_ ?_ hrows
    · change s.resumed ≠ none
      rw [ht]
      exact Option.some_ne_none _
    · rw [next,ht]
      rfl
  · rcases mem_waiting.mp hk with (hk | ⟨l,hl,hk⟩) | hk | ⟨hk,-⟩
    · exact reaches_of_manifest h hk content hrows
    · obtain ⟨-,hinv⟩ := step_next h (.persist l) hl
      exact .of_run [.persist l] ⟨hl,trivial⟩ (reaches_of_manifest hinv hk content hrows)
    · exact reaches_of_loaded h hk content hrows
    · exact reaches_of_queue h hk content hrows

/-- Everything that a job reads of its conversation stays as it is exactly if every answer that it
reads is finished and on the disk. -/
theorem history_stays_iff {s₀ : Engine} (hs₀ : Fresh s₀) {es : List Event}
    (hr : engine.Run s₀ es) {j : Job} (hrunning : (engine.exec s₀ es).running = some (j,none))
    (hprior : j.priorFromDb = true) :
    (∀ fs, engine.Run (engine.exec s₀ es) fs →
      (engine.exec (engine.exec s₀ es) fs).rows j.convId ≠ none →
      (engine.exec (engine.exec s₀ es) fs).history j false =
        (engine.exec s₀ es).history j false) ↔
    ∀ r ∈ (engine.exec s₀ es).priorRows j,
      ¬ (engine.exec s₀ es).Unfinished ⟨j.convId,r.messageId⟩ ∧ r.content = r.flushed := by
  obtain ⟨-,h⟩ := step_run hs₀.inv hr
  generalize engine.exec s₀ es = s at hrunning h ⊢
  have htarget : s.target = some j.target := congrArg _ hrunning
  have hhistory : ∀ s' : Engine, s'.history j false = (s'.priorRows j).map Row.message :=
    fun s' => if_pos hprior
  constructor
  · intro hstays r hr
    obtain ⟨rows,hrows,hmem,-⟩ := mem_priorRows h (.inr htarget) hr
    have hcontent : ∀ fs f new, engine.Run s fs →
        (engine.exec s fs).rows j.convId = some (rows.map f ++ new) →
        Grown s.nextId (engine.exec s fs).nextId f new → (f r).content = r.content := by
      intro fs f new hrun hrows' hf
      have hfs := hstays fs hrun (by rw [hrows']; exact Option.some_ne_none _)
      rw [hhistory,hhistory,priorRows_grown h (.inr htarget) hrows hrows' hf
        (step_run h hrun).1.le,List.map_map] at hfs
      exact congrArg Message.content (List.map_inj_left.mp hfs r hr)
    constructor
    · intro hunfinished
      obtain ⟨fs,rows',hrun,hrows',hreached⟩ := hunfinished.reaches h (r.content ++ [0])
        (by rw [hrows]; exact Option.some_ne_none _)
      obtain ⟨rows₁,f,new,hrows₁,rfl,hf,-⟩ := (step_run h hrun).1.grows _ rows' hrows'
      cases hrows.symm.trans hrows₁
      have hnew := hreached (f r) (List.mem_append_left _ (List.mem_map_of_mem hmem))
        (hf.messageId r)
      rw [hcontent fs f new hrun hrows' hf] at hnew
      simp at hnew
    · refine (hcontent [.lose] Row.reopen [] ⟨trivial,trivial⟩ ?_
        ((grown_id _ _).map (g := Row.reopen) (fun _ => rfl) fun _ => rfl)).symm
      change (s.rows j.convId).map _ = _
      rw [hrows,List.append_nil]
      rfl
  · intro hfinished fs hrun hrows'
    obtain ⟨rows',hrows'⟩ := Option.ne_none_iff_exists'.mp hrows'
    obtain ⟨hstep,-⟩ := step_run h hrun
    obtain ⟨rows,f,new,hrows,rfl,hf,hsettled⟩ := hstep.grows _ rows' hrows'
    have hstays : (s.priorRows j).map f = s.priorRows j := by
      refine (List.map_congr_left fun r hr => ?_).trans (List.map_id _)
      obtain ⟨hfinished,hflushed⟩ := hfinished r hr
      exact hsettled r (settled_of_finished h htarget hr hfinished hflushed)
    rw [hhistory,hhistory,priorRows_grown h (.inr htarget) hrows hrows' hf hstep.le,hstays]

/-- One empty conversation. -/
def firstStart : Engine := { rows := fun c => if c = 0 then some [] else none, nextId := 1 }

theorem firstStart_fresh : Fresh firstStart := by
  refine ⟨fun c rows hrows => ?_,rfl,rfl,rfl,rfl,rfl,rfl,rfl,rfl⟩
  rw [firstStart] at hrows
  dsimp only at hrows
  split at hrows
  · cases hrows
    exact ⟨List.Pairwise.nil,fun _ hr => by cases hr⟩
  · cases hrows

/-- A second question is waiting when the tab is killed during the answer to the first. -/
def interrupted : List Event :=
  [.send 0 [97] [] [],.reply false,.reply false,.start,.send 0 [98] [] [],.reply false,
    .reply false,.persist [⟨0,4,[98],true,[],[],.queued⟩],.read false,.hide ⟨0,2⟩,.kill true,
    .load,.bootQueue [] (fun _ => true),.start]

theorem interrupted_run : engine.Run firstStart interrupted :=
  ⟨Option.some_ne_none _,List.cons_ne_nil _ _,List.cons_ne_nil _ _,rfl,Option.some_ne_none _,
    List.cons_ne_nil _ _,List.cons_ne_nil _ _,.tail _ (.tail _ (.head _)),trivial,.inl rfl,trivial,
    rfl,fun _ _ => rfl,rfl,trivial⟩

/-- The second job reads the first answer while that is still written. -/
theorem interrupted_history : ¬ ∀ fs, engine.Run (engine.exec firstStart interrupted) fs →
    (engine.exec (engine.exec firstStart interrupted) fs).rows 0 ≠ none →
    (engine.exec (engine.exec firstStart interrupted) fs).history
        ⟨0,4,[98],true,[],[],.running⟩ false =
      (engine.exec firstStart interrupted).history ⟨0,4,[98],true,[],[],.running⟩ false := by
  intro hstays
  obtain ⟨hfinished,-⟩ := (history_stays_iff firstStart_fresh interrupted_run rfl rfl).mp hstays
    ⟨2,.model,[],[]⟩ (by decide)
  exact hfinished (.inl rfl)

end Engine
end Rullama.Chat
