import Rullama.Native.ChatView
import Mathlib.Data.List.Forall2

/-! # The live text of a conversation

As long as nothing is sent in a conversation that has a job pending, the row of a pending job
is the last one of its conversation, so that the live text of the conversation and its last
bubble belong to that job.
-/
namespace Rullama.Native

/-! ## Bubbles -/

namespace Bubble
variable {b : Bubble} {p : Paint} {ps : List Paint}

@[simp] theorem paint_vm : (b.paint p).vm = b.vm := by
  unfold paint
  split <;> rfl

@[simp] theorem paint_role : (b.paint p).role = b.role := by
  unfold paint
  split <;> rfl

theorem paint_of_eq (h : b.vm = p.vm) : (b.paint p).content = p.text := by
  rw [paint,if_pos h]

theorem paint_of_ne (h : b.vm ≠ p.vm) : b.paint p = b := by
  rw [paint,if_neg h]

@[simp] theorem settled_vm : (b.settled ps).vm = b.vm := by
  induction ps generalizing b with
  | nil => rfl
  | cons p ps ih => exact ih.trans paint_vm

theorem settled_cons : b.settled (p :: ps) = (b.paint p).settled ps := rfl

theorem settled_concat : b.settled (ps ++ [p]) = (b.settled ps).paint p := by
  simp [settled]

theorem settled_of_forall_ne (h : ∀ p ∈ ps, b.vm ≠ p.vm) : b.settled ps = b := by
  induction ps with
  | nil => rfl
  | cons p ps ih =>
    rw [List.forall_mem_cons] at h
    rw [settled_cons,paint_of_ne h.1]
    exact ih h.2

end Bubble

section lists
variable {α β : Type*} {R : α → β → Prop} {l₁ : List α} {l₂ : List β}

theorem exists_concat_of_forall₂ (h : List.Forall₂ R l₁ l₂) {b : β}
    (hlast : l₂.getLast? = some b) :
    ∃ i₁ a i₂, l₁ = i₁ ++ [a] ∧ l₂ = i₂ ++ [b] ∧ List.Forall₂ R i₁ i₂ ∧ R a b := by
  induction h with
  | nil => simp at hlast
  | @cons a' b' t₁ t₂ hab ht ih =>
    cases t₂ with
    | nil =>
      rw [List.forall₂_nil_right_iff] at ht
      have hb : b' = b := by simpa using hlast
      subst hb ht
      exact ⟨[],a',[],rfl,rfl,.nil,hab⟩
    | cons b'' t₂ =>
      rw [List.getLast?_cons_cons] at hlast
      obtain ⟨i₁,a,i₂,h₁,h₂,hi,ha⟩ := ih hlast
      rw [h₁,h₂]
      exact ⟨a' :: i₁,a,b' :: i₂,rfl,rfl,.cons hab hi,ha⟩

theorem forall₂_imp_mem {S : α → β → Prop} (h : List.Forall₂ R l₁ l₂)
    (himp : ∀ a ∈ l₁, ∀ b ∈ l₂, R a b → S a b) : List.Forall₂ S l₁ l₂ := by
  rw [List.forall₂_iff_zip] at h ⊢
  refine ⟨h.1,fun hab => ?_⟩
  have hmem := List.of_mem_zip hab
  exact himp _ hmem.1 _ hmem.2 (h.2 hab)

end lists

/-- The bubble of the last row is the last one, and no other one has its identity. -/
theorem forall₂_last {R : Bubble → MessageRow → Prop} {bs : List Bubble} {rs : List MessageRow}
    (h : List.Forall₂ R bs rs) (hvms : bs.Pairwise (fun b b' => b.vm ≠ b'.vm))
    (hids : rs.Pairwise (fun r t => r.id < t.id)) {r₀ : MessageRow}
    (hlast : rs.getLast? = some r₀) :
    ∃ b₀, bs.getLast? = some b₀ ∧ R b₀ r₀ ∧
      List.Forall₂ (fun b r => R b r ∧ (b.vm = b₀.vm ↔ r.id = r₀.id)) bs rs := by
  obtain ⟨i₁,b₀,i₂,rfl,rfl,hi,hb₀⟩ := exists_concat_of_forall₂ h hlast
  rw [List.pairwise_append] at hvms hids
  refine ⟨b₀,List.getLast?_concat,hb₀,List.rel_append ?_ (.cons ⟨hb₀,by simp⟩ .nil)⟩
  refine forall₂_imp_mem hi (fun b hb r hr hbr => ⟨hbr,?_⟩)
  have hvm := hvms.2.2 b hb b₀ (List.mem_singleton.mpr rfl)
  have hid := hids.2.2 r hr r₀ (List.mem_singleton.mpr rfl)
  exact iff_of_false hvm (Nat.ne_of_lt hid)

/-- The bubbles of a list of rows. -/
theorem forall₂_bubbles (vm : ℕ) (rs : List MessageRow) :
    List.Forall₂ (fun b r => b.role = r.role ∧ b.content = r.content ∧ vm ≤ b.vm)
      (bubbles vm rs) rs := by
  induction rs generalizing vm with
  | nil => exact .nil
  | cons r rs ih =>
    refine .cons ⟨rfl,rfl,Nat.le_refl _⟩ ((ih (vm + 1)).imp (fun _ _ h => ⟨h.1,h.2.1,?_⟩))
    exact Nat.le_of_succ_le h.2.2

theorem vm_of_mem_bubbles {vm : ℕ} {rs : List MessageRow} {b : Bubble} (h : b ∈ bubbles vm rs) :
    vm ≤ b.vm ∧ b.vm < vm + rs.length := by
  induction rs generalizing vm with
  | nil => exact absurd h List.not_mem_nil
  | cons r rs ih =>
    rw [List.length_cons]
    rcases List.mem_cons.mp h with rfl | h
    · exact ⟨Nat.le_refl _,by simp only; omega⟩
    · have := ih h
      omega

theorem pairwise_bubbles (vm : ℕ) (rs : List MessageRow) :
    (bubbles vm rs).Pairwise (fun b b' => b.vm ≠ b'.vm) := by
  induction rs generalizing vm with
  | nil => exact .nil
  | cons r rs ih =>
    refine .cons (fun b hb => ?_) (ih (vm + 1))
    have := (vm_of_mem_bubbles hb).1
    simp only
    omega

/-! ## What the screen is to show -/

section shows
variable (running : Option RunningJob) (posts : List Paint) (said : List (ℕ × String))

/-- The job of the row has had this text. -/
def OwnText (row : ℕ) (text : String) : Prop := text = "" ∨ (row,text) ∈ said

/-- The bubble of a model's row has a text of the row's job. Once the posted texts are
painted it has the text of the job that runs, and the stored text when the job does not
run. -/
structure Shows (b : Bubble) (r : MessageRow) : Prop where
  role : b.role = r.role
  own : r.role = .model → OwnText said r.id b.content
  follows : ∀ k, running = some k → k.job.modelRowId = r.id → k.phase = .reflected →
    (b.settled posts).content = k.sb
  stored : (∀ k, running = some k → k.job.modelRowId ≠ r.id) →
    (b.settled posts).content = r.content

/-- What stands between a bubble and its row at every moment. -/
structure Tracks (b : Bubble) (r : MessageRow) : Prop extends Shows running posts said b r where
  posted : r.role = .model → ∀ p ∈ posts, b.vm = p.vm → OwnText said r.id p.text
  silent : ∀ k, running = some k → k.job.modelRowId = r.id → k.phase = .silent →
    r.content = "" → (b.settled posts).content = ""

end shows

/-- The row of a job belongs to its conversation, and is the last one there. -/
structure Due (store : ConversationStore) (j : GenJob) : Prop where
  conv_lt : j.convId < store.nextConv
  row_lt : j.modelRowId < store.nextId
  convId : ∀ r ∈ store.rows, r.id = j.modelRowId → r.convId = j.convId
  last : j.convId ∈ store.conversations →
    ∃ r, (store.messages j.convId).getLast? = some r ∧ r.id = j.modelRowId ∧ r.role = .model

namespace ChatView
variable {s : ChatView} {c : ℕ}

/-- On the screen is one bubble for each row of the conversation, in their order. -/
def Faithful (s : ChatView) : Prop :=
  ∀ c, s.active = some c →
    List.Forall₂ (Shows s.running s.posts s.said) s.messages (s.store.messages c)

/-- A send comes when the conversation has no job pending. A job that ends without any text
has no text stored from before either. -/
def Unhurried (s : ChatView) : ChatAction → Prop
  | .send _ => ∀ c ∈ s.active, s.hasPendingFor c = false ∧ ∀ j ∈ s.sending, j.convId ≠ c
  | .finish => ∀ k ∈ s.running, k.phase = .silent →
      ∀ r ∈ s.store.rows, r.id = k.job.modelRowId → r.content = ""
  | _ => True

instance (s : ChatView) : DecidablePred s.Unhurried
  | .send _ => inferInstanceAs (Decidable (∀ c ∈ s.active, _))
  | .finish => inferInstanceAs (Decidable (∀ k ∈ s.running, _))
  | .loadModel | .createEmpty | .enqueue _ | .select _ | .delete _ | .stop | .token _
  | .append _ | .mirror | .paint | .relaunch => inferInstanceAs (Decidable True)

/-! ## The invariant -/

structure Coherent (s : ChatView) : Prop where
  rows : ∀ r ∈ s.store.rows, r.convId ∈ s.store.conversations
  active : ∀ c, s.active = some c → c ∈ s.store.conversations
  cleared : s.active = none → s.messages = []
  tracks : ∀ c, s.active = some c →
    List.Forall₂ (Tracks s.running s.posts s.said) s.messages (s.store.messages c)
  vms : s.messages.Pairwise (fun b b' => b.vm ≠ b'.vm)
  vm_lt : ∀ b ∈ s.messages, b.vm < s.nextVm
  post_lt : ∀ p ∈ s.posts, p.vm < s.nextVm
  stored_own : ∀ r ∈ s.store.rows, r.role = .model → OwnText s.said r.id r.content
  pending : ∀ j ∈ s.sending ++ s.jobs, Due s.store j
  running_due : ∀ k, s.running = some k → Due s.store k.job
  running_own : ∀ k, s.running = some k → OwnText s.said k.job.modelRowId k.sb
  running_silent : ∀ k, s.running = some k → k.phase = .silent → k.sb = ""
  running_listed : ∀ k, s.running = some k → k.job.convId ∈ s.store.conversations →
    ∃ j ∈ s.jobs, j.convId = k.job.convId
  running_live : ∀ k, s.running = some k → k.job.convId ∈ s.store.conversations →
    ∃ buf, s.live k.job.convId = some buf ∧ (k.phase ≠ .round → buf.content = k.sb) ∧
      (s.active = some k.job.convId → buf.vm.isSome)
  pumping : s.pumping = false → s.running = none
  live_lt : ∀ c buf, s.live c = some buf → c < s.store.nextConv
  live_row : ∀ c buf, s.live c = some buf → c ∈ s.store.conversations →
    ∃ r, (s.store.messages c).getLast? = some r ∧ r.role = .model ∧
      OwnText s.said r.id buf.content ∧
      ((∀ k, s.running = some k → k.job.convId ≠ c) → buf.content = "" ∧ r.content = "")
  live_vm : ∀ c buf vm, s.live c = some buf → buf.vm = some vm →
    s.active = some c ∧ ∃ b, s.messages.getLast? = some b ∧ b.vm = vm

theorem Coherent.faithful (h : s.Coherent) : s.Faithful :=
  fun c hc => (h.tracks c hc).imp (fun _ _ ht => ht.toShows)

theorem setLive_self (buf : Option LiveBuffer) : (s.setLive c buf).live c = buf :=
  Function.update_self ..

theorem setLive_of_ne {c' : ℕ} (h : c' ≠ c) (buf : Option LiveBuffer) :
    (s.setLive c buf).live c' = s.live c' := Function.update_of_ne h ..

/-! ## The job that runs -/

theorem OwnText.cons {said : List (ℕ × String)} {row : ℕ} {text : String} (x : ℕ × String)
    (h : OwnText said row text) : OwnText (x :: said) row text :=
  h.imp_right (List.mem_cons_of_mem x)

theorem Coherent.convId_eq (h : s.Coherent) {k : RunningJob} (hk : s.running = some k)
    {r : MessageRow} (hr : r ∈ s.store.messages c) (hid : r.id = k.job.modelRowId) :
    k.job.convId = c := by
  have hmem := ConversationStore.mem_messages.mp hr
  exact ((h.running_due k hk).convId r hmem.1 hid).symm.trans hmem.2

/-- The job that runs goes on, and what it has said by then is its own. -/
theorem Coherent.setRunning (h : s.Coherent) {k : RunningJob} (hk : s.running = some k)
    (k' : RunningJob) (hjob : k'.job = k.job) {said : List (ℕ × String)} (hsaid : s.said ⊆ said)
    (hown : OwnText said k.job.modelRowId k'.sb) (hsilent : k'.phase = .silent → k'.sb = "")
    (hlive : ∀ buf, s.live k.job.convId = some buf → k.job.convId ∈ s.store.conversations →
      k'.phase ≠ .round → buf.content = k'.sb)
    (hshown : ∀ c, s.active = some c → List.Forall₂ (fun b r => r.id = k.job.modelRowId →
      (k'.phase = .reflected → (b.settled s.posts).content = k'.sb) ∧
      (k'.phase = .silent → r.content = "" → (b.settled s.posts).content = ""))
      s.messages (s.store.messages c)) :
    { s with running := some k', said := said }.Coherent := by
  have hmono : ∀ row text, OwnText s.said row text → OwnText said row text :=
    fun row text => Or.imp_right (fun hmem => hsaid hmem)
  refine { h with
      tracks := ?_, stored_own := ?_, running_due := ?_, running_own := ?_, running_silent := ?_,
      running_listed := ?_, running_live := ?_, pumping := ?_, live_row := ?_ }
  · intro c hc
    refine List.Forall₂.mp (fun b r ht hs => ?_) (h.tracks c hc) (hshown c hc)
    refine { role := ht.role, own := ?_, follows := ?_, stored := ?_, posted := ?_, silent := ?_ }
    · exact fun hr => hmono _ _ (ht.own hr)
    · rintro _ ⟨⟩ hid
      exact (hs (by rw [← hjob]; exact hid.symm)).1
    · intro hne
      refine ht.stored (fun k₀ hk₀ => ?_)
      rw [hk] at hk₀
      cases hk₀
      rw [← hjob]
      exact hne k' rfl
    · exact fun hr p hp hvm => hmono _ _ (ht.posted hr p hp hvm)
    · rintro _ ⟨⟩ hid
      exact (hs (by rw [← hjob]; exact hid.symm)).2
  · exact fun r hr hrole => hmono _ _ (h.stored_own r hr hrole)
  · rintro _ ⟨⟩
    rw [hjob]
    exact h.running_due k hk
  · rintro _ ⟨⟩
    rw [hjob]
    exact hown
  · rintro _ ⟨⟩
    exact hsilent
  · rintro _ ⟨⟩
    rw [hjob]
    exact h.running_listed k hk
  · rintro _ ⟨⟩ hconv
    rw [hjob] at hconv ⊢
    obtain ⟨buf,hbuf,-,hvm⟩ := h.running_live k hk hconv
    exact ⟨buf,hbuf,hlive buf hbuf hconv,hvm⟩
  · intro hp
    rw [h.pumping hp] at hk
    cases hk
  · intro c buf hbuf hconv
    obtain ⟨r,hr,hrole,htext,hstored⟩ := h.live_row c buf hbuf hconv
    refine ⟨r,hr,hrole,hmono _ _ htext,fun hne => hstored (fun k₀ hk₀ => ?_)⟩
    rw [hk] at hk₀
    cases hk₀
    rw [← hjob]
    exact hne k' rfl

theorem Coherent.speak (h : s.Coherent) {k : RunningJob} (hk : s.running = some k)
    (text : String) : (s.speak k text).Coherent := by
  refine h.setRunning hk { k with sb := k.sb ++ text, phase := .round } rfl
    (List.subset_cons_self _ _) (.inr (List.mem_cons_self ..)) nofun
    (fun _ _ _ hround => absurd rfl hround) (fun c hc => ?_)
  exact (h.tracks c hc).imp (fun _ _ _ _ => ⟨nofun,nofun⟩)

theorem Coherent.count (h : s.Coherent) {k : RunningJob} (hk : s.running = some k) (n : ℕ) :
    (s.count n).Coherent := by
  unfold ChatView.count
  rw [hk]
  refine h.setRunning hk { k with sinceFlush :=
      n } rfl (List.Subset.refl _) (h.running_own k hk) (h.running_silent k hk)
    (fun buf hbuf hconv hround => ?_) (fun c hc => ?_)
  · obtain ⟨buf',hbuf',hcontent,-⟩ := h.running_live k hk hconv
    rw [hbuf] at hbuf'
    cases hbuf'
    exact hcontent hround
  · exact (h.tracks c hc).imp (fun b r ht hid => ⟨ht.follows k hk hid.symm,ht.silent k hk hid.symm⟩)

/-- The last bubble is that of the job that runs in the conversation on the screen. -/
theorem Coherent.running_last (h : s.Coherent) {k : RunningJob} (hk : s.running = some k)
    (hactive : s.active = some k.job.convId) :
    ∃ b₀, s.messages.getLast? = some b₀ ∧ b₀.role = .model ∧
      List.Forall₂ (fun b r => Tracks s.running s.posts s.said b r ∧
        (b.vm = b₀.vm ↔ r.id = k.job.modelRowId)) s.messages (s.store.messages k.job.convId) := by
  obtain ⟨r₀,hr₀,hid,hrole⟩ := (h.running_due k hk).last (h.active _ hactive)
  obtain ⟨b₀,hb₀,ht,hall⟩ := forall₂_last (h.tracks _ hactive) h.vms
    ConversationStore.messages_ordered hr₀
  rw [hid] at hall
  exact ⟨b₀,hb₀,ht.role.trans hrole,hall⟩

theorem Coherent.setContent (h : s.Coherent) {k : RunningJob} (hk : s.running = some k)
    {buf : LiveBuffer} (hbuf : s.live k.job.convId = some buf) :
    (s.setLive k.job.convId (some { buf with content := k.sb })).Coherent := by
  have hcases : ∀ c buf',
      (s.setLive k.job.convId (some { buf with content := k.sb })).live c = some buf' →
      c = k.job.convId ∧ buf' = { buf with content := k.sb } ∨
        c ≠ k.job.convId ∧ s.live c = some buf' := by
    intro c buf' hbuf'
    by_cases hc : c = k.job.convId
    · subst hc
      rw [setLive_self] at hbuf'
      exact .inl ⟨rfl,(Option.some.inj hbuf').symm⟩
    · rw [setLive_of_ne hc] at hbuf'
      exact .inr ⟨hc,hbuf'⟩
  refine { h with running_live := ?_, live_lt := ?_, live_row := ?_, live_vm := ?_ }
  · intro k₀ hk₀ hconv
    have heq : k = k₀ := Option.some.inj (hk.symm.trans hk₀)
    subst heq
    obtain ⟨buf',hbuf',-,hvm⟩ := h.running_live k hk hconv
    rw [hbuf] at hbuf'
    cases hbuf'
    exact ⟨_,setLive_self _,fun _ => rfl,hvm⟩
  · intro c buf' hbuf'
    rcases hcases c buf' hbuf' with ⟨rfl,-⟩ | ⟨-,hold⟩
    · exact h.live_lt _ buf hbuf
    · exact h.live_lt c buf' hold
  · intro c buf' hbuf' hconv
    rcases hcases c buf' hbuf' with ⟨rfl,rfl⟩ | ⟨-,hold⟩
    · obtain ⟨r,hr,hrole,-,-⟩ := h.live_row _ buf hbuf hconv
      obtain ⟨r',hr',hid,-⟩ := (h.running_due k hk).last hconv
      exact ⟨r,hr,hrole,by rw [hr] at hr'; cases hr'; rw [hid]; exact h.running_own k hk,
        fun hne => absurd rfl (hne k hk)⟩
    · exact h.live_row c buf' hold hconv
  · intro c buf' vm hbuf' hvm
    rcases hcases c buf' hbuf' with ⟨rfl,rfl⟩ | ⟨-,hold⟩
    · exact h.live_vm _ buf vm hbuf hvm
    · exact h.live_vm c buf' vm hold hvm

/-- The text of the job that runs is posted to its bubble. -/
theorem Coherent.post (h : s.Coherent) {k : RunningJob} (hk : s.running = some k)
    (hactive : s.active = some k.job.convId) {b₀ : Bubble} (hb₀ : s.messages.getLast? = some b₀) :
    (s.post ⟨b₀.vm,k.sb⟩).Coherent ∧
      List.Forall₂ (fun (b : Bubble) (r : MessageRow) => r.id = k.job.modelRowId →
        (b.settled (s.post ⟨b₀.vm,k.sb⟩).posts).content = k.sb)
        s.messages (s.store.messages k.job.convId) := by
  obtain ⟨b₁,hb₁,-,hall⟩ := h.running_last hk hactive
  have hb : b₁ = b₀ := Option.some.inj (hb₁.symm.trans hb₀)
  subst hb
  have hpainted : ∀ (b : Bubble) (r : MessageRow), (b.vm = b₁.vm ↔ r.id = k.job.modelRowId) →
      r.id = k.job.modelRowId → (b.settled (s.post ⟨b₁.vm,k.sb⟩).posts).content = k.sb := by
    intro b r hiff hid
    rw [ChatView.post,Bubble.settled_concat]
    exact Bubble.paint_of_eq (Bubble.settled_vm.trans (hiff.mpr hid))
  have hother : ∀ (b : Bubble) (r : MessageRow), (b.vm = b₁.vm ↔ r.id = k.job.modelRowId) →
      r.id ≠ k.job.modelRowId →
      b.settled (s.post ⟨b₁.vm,k.sb⟩).posts = b.settled s.posts := by
    intro b r hiff hid
    rw [ChatView.post,Bubble.settled_concat]
    exact Bubble.paint_of_ne (fun hvm => hid (hiff.mp (Bubble.settled_vm.symm.trans hvm)))
  refine ⟨{ h with tracks := ?_, post_lt := ?_ },hall.imp (fun b r ht => hpainted b r ht.2)⟩
  · intro c hc
    have hceq : k.job.convId = c := Option.some.inj (hactive.symm.trans hc)
    subst hceq
    refine hall.imp (fun b r ht => ?_)
    obtain ⟨ht,hiff⟩ := ht
    refine { role := ht.role, own := ht.own, follows := ?_, stored := ?_, posted := ?_,
             silent := ?_ }
    · intro k₀ hk₀ hid _
      have heq : k = k₀ := Option.some.inj (hk.symm.trans hk₀)
      subst heq
      exact hpainted b r hiff hid.symm
    · intro hne
      rw [hother b r hiff (fun hid => hne k hk hid.symm)]
      exact ht.stored hne
    · intro hrole p hp hvm
      rcases List.mem_append.mp hp with hp | hp
      · exact ht.posted hrole p hp hvm
      · rw [List.mem_singleton.mp hp] at hvm ⊢
        rw [hiff.mp hvm]
        exact h.running_own k hk
    · intro k₀ hk₀ hid hphase _
      have heq : k = k₀ := Option.some.inj (hk.symm.trans hk₀)
      subst heq
      rw [hpainted b r hiff hid.symm]
      exact h.running_silent k hk hphase
  · intro p hp
    rcases List.mem_append.mp hp with hp | hp
    · exact h.post_lt p hp
    · rw [List.mem_singleton.mp hp]
      exact h.vm_lt b₁ (List.mem_of_getLast? hb₁)

/-- What becomes of a text: it is dropped, kept, or kept and painted. -/
theorem reflect_cases (s : ChatView) (job : GenJob) (full : String) :
    s.live job.convId = none ∧ s.reflect job full = s ∨
    ∃ buf, s.live job.convId = some buf ∧
      ((buf.vm = none ∨ s.active ≠ some job.convId) ∧
          s.reflect job full = s.setLive job.convId (some { buf with content := full }) ∨
        ∃ vm, buf.vm = some vm ∧ s.active = some job.convId ∧ s.reflect job full =
          (s.setLive job.convId (some { buf with content := full })).post ⟨vm,full⟩) := by
  unfold ChatView.reflect
  cases hbuf : s.live job.convId with
  | none => exact .inl ⟨rfl,rfl⟩
  | some buf =>
    refine .inr ⟨buf,rfl,?_⟩
    obtain ⟨row,content,vm⟩ := buf
    cases vm with
    | none => exact .inl ⟨.inl rfl,rfl⟩
    | some vm =>
      by_cases hactive : s.active = some job.convId
      · exact .inr ⟨vm,rfl,hactive,if_pos hactive⟩
      · exact .inl ⟨.inr hactive,if_neg hactive⟩

/-- The live text and the bubble have the text of the job once it is reflected. -/
theorem Coherent.reflect (h : s.Coherent) {k : RunningJob} (hk : s.running = some k) :
    (s.reflect k.job k.sb).Coherent ∧
      (∀ c, s.active = some c → List.Forall₂ (fun (b : Bubble) (r : MessageRow) =>
        r.id = k.job.modelRowId → (b.settled (s.reflect k.job k.sb).posts).content = k.sb)
        s.messages (s.store.messages c)) ∧
      ∀ buf, (s.reflect k.job k.sb).live k.job.convId = some buf → buf.content = k.sb := by
  have hoff : s.active ≠ some k.job.convId → ∀ c posts, s.active = some c →
      List.Forall₂ (fun (b : Bubble) (r : MessageRow) =>
        r.id = k.job.modelRowId → (b.settled posts).content = k.sb)
        s.messages (s.store.messages c) := by
    intro hactive c posts hc
    refine forall₂_imp_mem (h.tracks c hc) (fun b _ r hr _ hid => ?_)
    exact absurd (h.convId_eq hk hr hid ▸ hc) hactive
  have hlive := h.running_live k hk
  rcases reflect_cases s k.job k.sb with ⟨hnone,heq⟩ | ⟨buf,hbuf,⟨hvm,heq⟩ | ⟨vm,hvm,hactive,heq⟩⟩
  · rw [heq]
    refine ⟨h,fun c hc => hoff (fun hactive => ?_) c _ hc,fun buf hbuf => ?_⟩
    · obtain ⟨buf,hbuf,-⟩ := hlive (h.active _ hactive)
      rw [hnone] at hbuf
      cases hbuf
    · rw [hnone] at hbuf
      cases hbuf
  · rw [heq]
    refine ⟨h.setContent hk hbuf,fun c hc => hoff (fun hactive => ?_) c _ hc,fun buf' hbuf' => ?_⟩
    · obtain ⟨buf',hbuf',-,hsome⟩ := hlive (h.active _ hactive)
      have hbb : buf = buf' := Option.some.inj (hbuf.symm.trans hbuf')
      subst hbb
      rcases hvm with hvm | hvm
      · simp [hvm] at hsome hactive
        exact hsome hactive
      · exact hvm hactive
    · rw [setLive_self] at hbuf'
      cases hbuf'
      rfl
  · obtain ⟨-,b₀,hb₀,rfl⟩ := h.live_vm _ buf vm hbuf hvm
    have hset := h.setContent hk hbuf
    obtain ⟨hpost,hall⟩ := hset.post hk hactive hb₀
    rw [heq]
    refine ⟨hpost,fun c hc => ?_,fun buf' hbuf' => ?_⟩
    · have hceq : k.job.convId = c := Option.some.inj (hactive.symm.trans hc)
      exact hceq ▸ hall
    · rw [ChatView.post,setLive_self] at hbuf'
      cases hbuf'
      rfl

theorem reflect_eq (s : ChatView) (job : GenJob) (full : String) :
    ∃ live posts, s.reflect job full = { s with live := live, posts := posts } := by
  rcases reflect_cases s job full with ⟨-,heq⟩ | ⟨buf,-,⟨-,heq⟩ | ⟨vm,-,-,heq⟩⟩
  · exact ⟨s.live,s.posts,heq⟩
  · exact ⟨_,s.posts,heq⟩
  · exact ⟨_,_,heq⟩

theorem Coherent.mirror (h : s.Coherent) : s.mirror.Coherent := by
  unfold ChatView.mirror
  cases hk : s.running with
  | none => exact h
  | some k =>
    obtain ⟨hcoh,hall,hlive⟩ := h.reflect hk
    obtain ⟨live,posts,heq⟩ := reflect_eq s k.job k.sb
    simp only [heq] at hcoh hall hlive ⊢
    refine hcoh.setRunning hk { k with phase := .reflected } rfl (List.Subset.refl _)
      (h.running_own k hk) nofun (fun buf hbuf _ _ => hlive buf hbuf) (fun c hc => ?_)
    exact (hall c hc).imp (fun b r hb hid => ⟨fun _ => hb hid,nofun⟩)

/-- The text of the job that runs is stored. -/
theorem Coherent.flush (h : s.Coherent) {k : RunningJob} (hk : s.running = some k)
    (hempty : k.phase = .silent → ∀ r ∈ s.store.rows, r.id = k.job.modelRowId → r.content = "") :
    s.flush.Coherent := by
  have hflush : s.flush = { s with store := s.store.updateMessage k.job.modelRowId k.sb } := by
    simp only [ChatView.flush,hk]
  have hdue : ∀ j, Due s.store j → Due (s.store.updateMessage k.job.modelRowId k.sb) j := by
    intro j hj
    refine ⟨hj.conv_lt,hj.row_lt,fun r hr hid => ?_,fun hconv => ?_⟩
    · obtain ⟨t,ht,rfl⟩ := ConversationStore.mem_updateMessage hr
      rw [MessageRow.update_id] at hid
      rw [MessageRow.update_convId]
      exact hj.convId t ht hid
    · obtain ⟨r,hr,hid,hrole⟩ := hj.last hconv
      rw [ConversationStore.messages_updateMessage,List.getLast?_map,hr]
      exact ⟨_,rfl,by rw [MessageRow.update_id,hid],by rw [MessageRow.update_role,hrole]⟩
  rw [hflush]
  refine { h with
      rows := ?_, tracks := ?_, stored_own := ?_, pending := fun j hj => hdue j (h.pending j hj),
      running_due := fun k₀ hk₀ => hdue _ (h.running_due k₀ hk₀), live_row := ?_ }
  · intro r hr
    obtain ⟨t,ht,rfl⟩ := ConversationStore.mem_updateMessage hr
    rw [MessageRow.update_convId]
    exact h.rows t ht
  · intro c hc
    rw [ConversationStore.messages_updateMessage,List.forall₂_map_right_iff]
    refine forall₂_imp_mem (h.tracks c hc) (fun b _ r hr ht => ?_)
    by_cases hid : r.id = k.job.modelRowId
    · refine { role := by simpa using ht.role, own := by simpa using ht.own, follows := ?_,
               stored := ?_, posted := by simpa using ht.posted, silent := ?_ }
      · simpa using ht.follows
      · intro hne
        simp only [MessageRow.update_id] at hne
        exact absurd hid.symm (hne k hk)
      · simp only [MessageRow.update_id]
        intro k₀ hk₀ hid₀ hphase _
        have heq : k = k₀ := Option.some.inj (hk.symm.trans hk₀)
        subst heq
        exact ht.silent k hk hid₀ hphase
          (hempty hphase r (ConversationStore.mem_messages.mp hr).1 hid)
    · rw [MessageRow.update_of_ne hid]
      exact ht
  · intro r hr hrole
    obtain ⟨t,ht,rfl⟩ := ConversationStore.mem_updateMessage hr
    rw [MessageRow.update_role] at hrole
    by_cases hid : t.id = k.job.modelRowId
    · rw [MessageRow.update_of_eq hid,MessageRow.update_id,hid]
      exact h.running_own k hk
    · rw [MessageRow.update_of_ne hid]
      exact h.stored_own t ht hrole
  · intro c buf hbuf hconv
    obtain ⟨r,hr,hrole,htext,hstored⟩ := h.live_row c buf hbuf hconv
    rw [ConversationStore.messages_updateMessage,List.getLast?_map,hr]
    refine ⟨_,rfl,by simpa using hrole,by simpa using htext,fun hne => ?_⟩
    have hid : r.id ≠ k.job.modelRowId := fun hid =>
      hne k hk (h.convId_eq hk (List.mem_of_getLast? hr) hid)
    simpa only [MessageRow.update_of_ne hid] using hstored hne

/-- A job whose text is stored leaves, and its bubble has the stored text. -/
theorem Coherent.leave (h : s.Coherent) {k : RunningJob} (hk : s.running = some k)
    (hphase : k.phase ≠ .round)
    (hstored : ∀ r ∈ s.store.rows, r.id = k.job.modelRowId → r.content = k.sb) :
    (s.leave k.job).Coherent := by
  have hlive : ∀ c buf, (s.leave k.job).live c = some buf →
      c ≠ k.job.convId ∧ s.live c = some buf := by
    intro c buf hbuf
    by_cases hc : c = k.job.convId
    · rw [hc,ChatView.leave,setLive_self] at hbuf
      cases hbuf
    · rw [ChatView.leave,setLive_of_ne hc] at hbuf
      exact ⟨hc,hbuf⟩
  refine { h with
      tracks := ?_, pending := ?_, running_due := nofun, running_own := nofun,
      running_silent := nofun, running_listed := nofun, running_live := nofun,
      pumping := fun _ => rfl, live_lt := ?_, live_row := ?_, live_vm := ?_ }
  · intro c hc
    refine forall₂_imp_mem (h.tracks c hc) (fun b _ r hr ht => ?_)
    refine { role := ht.role, own := ht.own, follows := nofun, stored := fun _ => ?_,
             posted := ht.posted, silent := nofun }
    by_cases hid : k.job.modelRowId = r.id
    · have hr' := hstored r (ConversationStore.mem_messages.mp hr).1 hid.symm
      rw [hr']
      cases hp : k.phase with
      | silent =>
        have hsb := h.running_silent k hk hp
        rw [hsb] at hr' ⊢
        exact ht.silent k hk hid hp hr'
      | reflected => exact ht.follows k hk hid hp
      | round => exact absurd hp hphase
    · refine ht.stored (fun k₀ hk₀ => ?_)
      have heq : k = k₀ := Option.some.inj (hk.symm.trans hk₀)
      exact heq ▸ hid
  · intro j hj
    refine h.pending j ?_
    rw [List.mem_append] at hj ⊢
    exact hj.imp_right (fun hj => (List.mem_filter.mp hj).1)
  · intro c buf hbuf
    exact h.live_lt c buf (hlive c buf hbuf).2
  · intro c buf hbuf hconv
    obtain ⟨hc,hold⟩ := hlive c buf hbuf
    obtain ⟨r,hr,hrole,htext,hst⟩ := h.live_row c buf hold hconv
    refine ⟨r,hr,hrole,htext,fun _ => hst (fun k₀ hk₀ => ?_)⟩
    have heq : k = k₀ := Option.some.inj (hk.symm.trans hk₀)
    exact heq ▸ hc.symm
  · intro c buf vm hbuf hvm
    exact h.live_vm c buf vm (hlive c buf hbuf).2 hvm

/-! ## The queue -/

@[simp] theorem attach_content (s : ChatView) (c : ℕ) (buf : LiveBuffer) :
    (s.attach c buf).content = buf.content := by
  unfold attach
  split
  · split
    · split <;> rfl
    · rfl
  · rfl

theorem attach_vm (s : ChatView) (c : ℕ) (buf : LiveBuffer) :
    (s.attach c buf).vm = buf.vm ∨
      s.active = some c ∧ ∃ b, s.messages.getLast? = some b ∧ (s.attach c buf).vm = some b.vm := by
  unfold attach
  split
  · rename_i hc
    split
    · rename_i last hlast
      split
      · exact .inr ⟨hc.1,last,hlast,rfl⟩
      · exact .inl rfl
    · exact .inl rfl
  · exact .inl rfl

theorem attach_isSome {b : Bubble} (hactive : s.active = some c)
    (hb : s.messages.getLast? = some b) (hrole : b.role = .model) (buf : LiveBuffer) :
    (s.attach c buf).vm.isSome := by
  unfold attach
  by_cases hvm : buf.vm = none
  · simp [hactive,hvm,hb,hrole]
  · rw [if_neg (fun h => hvm h.2)]
    exact Option.isSome_iff_ne_none.mpr hvm

/-- The buffer of a job that starts is the live one of its conversation, or a new one. -/
theorem Coherent.start (h : s.Coherent) (hrun : s.running = none) (hpump : s.pumping = true)
    {job : GenJob} (hjob : job ∈ s.jobs) : (s.start job).Coherent := by
  have hdue : Due s.store job := h.pending job (List.mem_append_right _ hjob)
  have hidle : ∀ k c, s.running = some k → k.job.convId ≠ c := by
    intro k c hk
    rw [hrun] at hk
    cases hk
  obtain ⟨buf,hbuf,hcases⟩ : ∃ buf, (s.start job).live = Function.update s.live job.convId
      (some (s.attach job.convId buf)) ∧ ((∃ old, s.live job.convId = some old ∧
        buf.content = old.content ∧ buf.vm = old.vm) ∨ buf.content = "" ∧ buf.vm = none) := by
    unfold ChatView.start
    cases hlive : s.live job.convId with
    | none => exact ⟨_,rfl,.inr ⟨rfl,rfl⟩⟩
    | some old => exact ⟨_,rfl,.inl ⟨old,rfl,rfl,rfl⟩⟩
  have hlives : ∀ c buf', (s.start job).live c = some buf' →
      c = job.convId ∧ buf' = s.attach job.convId buf ∨ c ≠ job.convId ∧ s.live c = some buf' := by
    intro c buf' hbuf'
    rw [hbuf] at hbuf'
    by_cases hc : c = job.convId
    · rw [hc,Function.update_self,Option.some.injEq] at hbuf'
      exact .inl ⟨hc,hbuf'.symm⟩
    · rw [Function.update_of_ne hc] at hbuf'
      exact .inr ⟨hc,hbuf'⟩
  have hempty : job.convId ∈ s.store.conversations → buf.content = "" := by
    intro hconv
    rcases hcases with ⟨old,hold,hcontent,-⟩ | ⟨hcontent,-⟩
    · obtain ⟨r,-,-,-,hstored⟩ := h.live_row _ old hold hconv
      rw [hcontent]
      exact (hstored (fun k hk => hidle k _ hk)).1
    · exact hcontent
  refine { h with
      tracks := ?_, pending := ?_, running_due := ?_, running_own := ?_, running_silent := ?_,
      running_listed := ?_, running_live := ?_, pumping := ?_, live_lt := ?_, live_row := ?_,
      live_vm := ?_ }
  · intro c hc
    refine (h.tracks c hc).imp (fun b r ht => ?_)
    have hst : (b.settled s.posts).content = r.content := by
      refine ht.stored (fun k hk => ?_)
      rw [hrun] at hk
      cases hk
    refine { role := ht.role, own := ht.own, follows := ?_, stored := fun _ => hst,
             posted := ht.posted, silent := ?_ }
    · rintro _ ⟨⟩ _ hphase
      cases hphase
    · rintro _ ⟨⟩ _ _ hr
      exact hst.trans hr
  · intro j hj
    rcases List.mem_append.mp hj with hj | hj
    · exact h.pending j (List.mem_append_left _ hj)
    · obtain ⟨j₀,hj₀,rfl⟩ := List.mem_map.mp hj
      have hdue₀ := h.pending j₀ (List.mem_append_right _ hj₀)
      split
      · exact ⟨hdue₀.conv_lt,hdue₀.row_lt,hdue₀.convId,hdue₀.last⟩
      · exact hdue₀
  · rintro _ ⟨⟩
    exact hdue
  · rintro _ ⟨⟩
    exact .inl rfl
  · rintro _ ⟨⟩ _
    rfl
  · rintro _ ⟨⟩ _
    refine ⟨_,List.mem_map_of_mem hjob,?_⟩
    split <;> rfl
  · rintro _ ⟨⟩ hconv
    refine ⟨s.attach job.convId buf,?_,fun _ => ?_,fun hactive => ?_⟩
    · rw [hbuf]
      exact Function.update_self ..
    · rw [attach_content]
      exact hempty hconv
    · obtain ⟨r,hr,-,hrole⟩ := hdue.last hconv
      obtain ⟨b,hb,ht,-⟩ := forall₂_last (h.tracks _ hactive) h.vms
        ConversationStore.messages_ordered hr
      exact attach_isSome hactive hb (ht.role.trans hrole) buf
  · intro hp
    rw [show (s.start job).pumping = s.pumping from rfl,hpump] at hp
    cases hp
  · intro c buf' hbuf'
    rcases hlives c buf' hbuf' with ⟨rfl,-⟩ | ⟨-,hold⟩
    · exact hdue.conv_lt
    · exact h.live_lt c buf' hold
  · intro c buf' hbuf' hconv
    rcases hlives c buf' hbuf' with ⟨rfl,rfl⟩ | ⟨hc,hold⟩
    · obtain ⟨r,hr,-,hrole⟩ := hdue.last hconv
      rw [attach_content,hempty hconv]
      exact ⟨r,hr,hrole,.inl rfl,fun hne => absurd rfl (hne _ rfl)⟩
    · obtain ⟨r,hr,hrole,htext,hstored⟩ := h.live_row c buf' hold hconv
      exact ⟨r,hr,hrole,htext,fun _ => hstored (fun k hk => hidle k c hk)⟩
  · intro c buf' vm hbuf' hvm
    rcases hlives c buf' hbuf' with ⟨rfl,rfl⟩ | ⟨-,hold⟩
    · rcases attach_vm s job.convId buf with hsame | ⟨hactive,b,hb,hnew⟩
      · rw [hsame] at hvm
        rcases hcases with ⟨old,hold,-,hvm'⟩ | ⟨-,hnone⟩
        · exact h.live_vm _ old vm hold (hvm' ▸ hvm)
        · rw [hnone] at hvm
          cases hvm
      · rw [hnew] at hvm
        exact ⟨hactive,b,hb,Option.some.inj hvm⟩
    · exact h.live_vm c buf' vm hold hvm

theorem Coherent.pump (h : s.Coherent) (hrun : s.running = none) (hpump : s.pumping = true) :
    s.pump.Coherent := by
  unfold ChatView.pump
  cases hfind : s.jobs.find? (fun j => j.status = .queued) with
  | none => exact { h with pumping := fun _ => hrun }
  | some job => exact h.start hrun hpump (List.mem_of_find?_eq_some hfind)

theorem Coherent.kick (h : s.Coherent) : s.kick.Coherent := by
  unfold ChatView.kick
  cases hp : s.pumping with
  | true => exact h
  | false =>
    have hset : { s with pumping := true }.Coherent := { h with pumping := nofun }
    exact hset.pump (h.pumping hp) rfl

theorem mirror_running {k : RunningJob} (hk : s.running = some k) :
    s.mirror.running = some { k with phase := .reflected } := by
  simp only [ChatView.mirror,hk]

theorem Coherent.token (h : s.Coherent) {k : RunningJob} (hk : s.running = some k)
    (piece : String) : (s.token k piece).Coherent := by
  have hmirror : (s.speak k piece).mirror.Coherent := (h.speak hk piece).mirror
  have hrun := mirror_running (s := s.speak k piece) rfl
  unfold ChatView.token
  simp only
  split
  · have hcount := hmirror.count hrun 0
    have hcounted : ((s.speak k piece).mirror.count 0).running =
        some { job := k.job, sb := k.sb ++ piece, phase := .reflected } := by
      simp only [ChatView.count,hrun,Option.map_some]
    exact hcount.flush hcounted nofun
  · exact hmirror.count hrun _

theorem Coherent.finish (h : s.Coherent) {k : RunningJob} (hk : s.running = some k)
    (hphase : k.phase ≠ .round)
    (hempty : k.phase = .silent → ∀ r ∈ s.store.rows, r.id = k.job.modelRowId → r.content = "") :
    (s.finish k.job).Coherent := by
  have hflush : s.flush.Coherent := h.flush hk hempty
  have heq : s.flush = { s with store := s.store.updateMessage k.job.modelRowId k.sb } := by
    simp only [ChatView.flush,hk]
  have hleave : (s.flush.leave k.job).Coherent := by
    refine hflush.leave (by rw [heq]; exact hk) hphase (fun r hr hid => ?_)
    rw [heq] at hr
    obtain ⟨t,-,rfl⟩ := ConversationStore.mem_updateMessage hr
    rw [MessageRow.update_id] at hid
    exact MessageRow.update_of_eq hid k.sb
  refine hleave.pump rfl ?_
  have hpump : s.flush.pumping = s.pumping := by rw [heq]
  refine hpump.trans ?_
  cases hp : s.pumping with
  | true => rfl
  | false =>
    rw [h.pumping hp] at hk
    cases hk

end ChatView
end Rullama.Native
