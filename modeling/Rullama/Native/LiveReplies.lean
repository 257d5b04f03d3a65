import Rullama.Native.LiveText

/-! # The bubbles of a conversation show its replies

The conversations, the sends and the painting keep what stands between bubbles and rows, and
so does every run in which no send is hurried.
-/
namespace Rullama.Native

namespace ChatView
variable {s : ChatView} {c : ℕ}

/-! ## The conversations -/

/-- A conversation is shown with new bubbles, the last of which its live text points to. -/
theorem Coherent.view (h : s.Coherent) (hc : c ∈ s.store.conversations) {bs : List Bubble}
    {n : ℕ} {live : ℕ → Option LiveBuffer}
    (htracks : List.Forall₂ (Tracks s.running s.posts s.said) bs (s.store.messages c))
    (hvms : bs.Pairwise (fun b b' => b.vm ≠ b'.vm)) (hlt : ∀ b ∈ bs, b.vm < n)
    (hn : s.nextVm ≤ n)
    (hold : ∀ c' buf', live c' = some buf' → ∃ buf, s.live c' = some buf ∧
      buf'.content = buf.content ∧ (buf'.vm = none ∨
        c' = c ∧ ∃ b, bs.getLast? = some b ∧ buf'.vm = some b.vm))
    (hnew : ∀ c' buf, s.live c' = some buf → c' ∈ s.store.conversations →
      ∃ buf', live c' = some buf' ∧ buf'.content = buf.content ∧ (c' = c → buf'.vm.isSome)) :
    { s with active := some c, messages := bs, nextVm := n, live := live }.Coherent := by
  refine { h with
      active := ?_, cleared := nofun, tracks := ?_, vms := hvms, vm_lt := hlt, post_lt := ?_,
      running_live := ?_, live_lt := ?_, live_row := ?_, live_vm := ?_ }
  · rintro _ ⟨⟩
    exact hc
  · rintro _ ⟨⟩
    exact htracks
  · exact fun p hp => Nat.lt_of_lt_of_le (h.post_lt p hp) hn
  · intro k hk hconv
    obtain ⟨buf,hbuf,hcontent,-⟩ := h.running_live k hk hconv
    obtain ⟨buf',hbuf',hsame,hsome⟩ := hnew _ buf hbuf hconv
    refine ⟨buf',hbuf',fun hphase => hsame.trans (hcontent hphase),fun hactive => hsome ?_⟩
    exact (Option.some.inj hactive).symm
  · intro c' buf' hbuf'
    obtain ⟨buf,hbuf,-⟩ := hold c' buf' hbuf'
    exact h.live_lt c' buf hbuf
  · intro c' buf' hbuf' hconv
    obtain ⟨buf,hbuf,hsame,-⟩ := hold c' buf' hbuf'
    rw [hsame]
    exact h.live_row c' buf hbuf hconv
  · intro c' buf' vm hbuf' hvm
    obtain ⟨buf,-,-,hnone | ⟨rfl,b,hb,hbvm⟩⟩ := hold c' buf' hbuf'
    · rw [hnone] at hvm
      cases hvm
    · rw [hbvm] at hvm
      exact ⟨rfl,b,hb,Option.some.inj hvm⟩

/-- Bubbles that are built from the rows have the stored texts, and nothing is posted to
them. -/
theorem Coherent.rebuilt (h : s.Coherent) (c : ℕ) :
    List.Forall₂ (fun b r => b.role = r.role ∧ b.content = r.content ∧ ∀ p ∈ s.posts, b.vm ≠ p.vm)
      (bubbles s.nextVm (s.store.messages c)) (s.store.messages c) := by
  refine (forall₂_bubbles _ _).imp (fun b r hb => ⟨hb.1,hb.2.1,fun p hp hvm => ?_⟩)
  have := h.post_lt p hp
  omega

theorem Coherent.tracks_of_stored (h : s.Coherent) {b : Bubble} {r : MessageRow}
    (hr : r ∈ s.store.messages c) (hrole : b.role = r.role) (hcontent : b.content = r.content)
    (hposts : ∀ p ∈ s.posts, b.vm ≠ p.vm)
    (hrun : ∀ k, s.running = some k → k.job.modelRowId ≠ r.id) :
    Tracks s.running s.posts s.said b r := by
  have hset : (b.settled s.posts).content = r.content := by
    rw [Bubble.settled_of_forall_ne hposts,hcontent]
  refine { role := hrole, own := ?_, follows := ?_, stored := fun _ => hset, posted := ?_,
           silent := fun _ _ _ _ hempty => hset.trans hempty }
  · rw [hcontent]
    exact h.stored_own r (ConversationStore.mem_messages.mp hr).1
  · exact fun k hk hid => absurd hid (hrun k hk)
  · exact fun _ p hp hvm => absurd hvm (hposts p hp)

/-- The bubble of the last row when the live text of the conversation is laid over it. -/
theorem Coherent.tracks_of_live (h : s.Coherent) (hc : c ∈ s.store.conversations)
    {buf : LiveBuffer} (hbuf : s.live c = some buf) {b : Bubble} {r : MessageRow}
    (hr : (s.store.messages c).getLast? = some r) (hrole : b.role = r.role)
    (hcontent : b.content = buf.content) (hposts : ∀ p ∈ s.posts, b.vm ≠ p.vm) :
    Tracks s.running s.posts s.said b r := by
  have hset : (b.settled s.posts).content = buf.content := by
    rw [Bubble.settled_of_forall_ne hposts,hcontent]
  have hmem : r ∈ s.store.messages c := List.mem_of_getLast? hr
  have hrun : ∀ k, s.running = some k → k.job.modelRowId = r.id → k.phase ≠ .round →
      buf.content = k.sb := by
    intro k hk hid hphase
    have hconv := h.convId_eq hk hmem hid.symm
    obtain ⟨buf',hbuf',hsb,-⟩ := h.running_live k hk (hconv.symm ▸ hc)
    rw [hconv,hbuf] at hbuf'
    cases hbuf'
    exact hsb hphase
  obtain ⟨r',hr',-,htext,hstored⟩ := h.live_row c buf hbuf hc
  rw [hr] at hr'
  cases hr'
  refine { role := hrole, own := ?_, follows := ?_, stored := ?_, posted := ?_, silent := ?_ }
  · exact fun _ => hcontent ▸ htext
  · intro k hk hid hphase
    exact hset.trans (hrun k hk hid (by rw [hphase]; nofun))
  · intro hne
    have hempty := hstored (fun k hk hconv => ?_)
    · rw [hset,hempty.1,hempty.2]
    · obtain ⟨r',hr',hid,-⟩ := (h.running_due k hk).last (hconv.symm ▸ hc)
      rw [hconv,hr] at hr'
      cases hr'
      exact hne k hk hid.symm
  · exact fun _ p hp hvm => absurd hvm (hposts p hp)
  · intro k hk hid hphase _
    rw [hset,hrun k hk hid (by rw [hphase]; nofun),h.running_silent k hk hphase]

theorem overlay_eq {buf : LiveBuffer} {b : Bubble} (hbuf : s.live c = some buf)
    (hb : s.messages.getLast? = some b) (hrole : b.role = .model) :
    s.overlay c = { s.setLive c (some { buf with vm := some b.vm }) with
      messages := s.messages.map (fun b' => b'.paint ⟨b.vm,buf.content⟩) } := by
  simp only [overlay,hbuf,hb,hrole,if_true]

theorem Coherent.select (h : s.Coherent) (hc : c ∈ s.store.conversations) :
    (s.select c).Coherent := by
  have hbs := h.rebuilt c
  have hvms := pairwise_bubbles s.nextVm (s.store.messages c)
  have hlive : ∀ c', (s.rebuild c).live c' =
      if c' = c then s.live c' else (s.live c').map LiveBuffer.detach :=
    fun _ => rfl
  unfold ChatView.select
  cases hbuf : s.live c with
  | none =>
    have hsame : (s.rebuild c).overlay c = s.rebuild c := by
      simp only [overlay,hlive,if_pos,hbuf]
    have hrun : ∀ k, s.running = some k → k.job.convId ≠ c := by
      rintro k hk rfl
      obtain ⟨buf,hsome,-⟩ := h.running_live k hk hc
      rw [hbuf] at hsome
      cases hsome
    rw [hsame]
    refine h.view hc (forall₂_imp_mem hbs (fun b _ r hr hb => ?_)) hvms
      (fun b hb => (vm_of_mem_bubbles hb).2) (Nat.le_add_right _ _) ?_ ?_
    · refine h.tracks_of_stored hr hb.1 hb.2.1 hb.2.2 (fun k hk hid => ?_)
      exact hrun k hk (h.convId_eq hk hr hid.symm)
    · intro c' buf' hbuf'
      by_cases hcc : c' = c
      · rw [if_pos hcc,hcc,hbuf] at hbuf'
        cases hbuf'
      · rw [if_neg hcc,Option.map_eq_some_iff] at hbuf'
        obtain ⟨buf,hold,rfl⟩ := hbuf'
        exact ⟨buf,hold,rfl,.inl rfl⟩
    · intro c' buf hold _
      have hcc : c' ≠ c := by
        rintro rfl
        rw [hbuf] at hold
        cases hold
      refine ⟨buf.detach,?_,rfl,fun heq => absurd heq hcc⟩
      rw [if_neg hcc,hold]
      rfl
  | some buf =>
    obtain ⟨r₀,hr₀,hrole₀,htext,hstored⟩ := h.live_row c buf hbuf hc
    obtain ⟨b₀,hb₀,⟨hrole,-⟩,hall⟩ := forall₂_last hbs hvms ConversationStore.messages_ordered hr₀
    have hlivec : (s.rebuild c).live c = some buf := by
      rw [hlive,if_pos rfl]
      exact hbuf
    have hlast : (s.rebuild c).messages.getLast? = some b₀ := hb₀
    have hover := overlay_eq hlivec hlast (hrole.trans hrole₀)
    rw [hover]
    have hrunning : ∀ k, s.running = some k → ∀ r ∈ s.store.messages c,
        r.id = k.job.modelRowId → r.id = r₀.id := by
      intro k hk r hr hid
      obtain ⟨r',hr',hid',-⟩ := (h.running_due k hk).last (by rw [h.convId_eq hk hr hid]; exact hc)
      rw [h.convId_eq hk hr hid,hr₀] at hr'
      cases hr'
      rw [hid,hid']
    refine h.view hc ?_ ?_ ?_ (Nat.le_add_right _ _) ?_ ?_
    · refine List.forall₂_map_left_iff.mpr (forall₂_imp_mem hall (fun b _ r hr hb => ?_))
      obtain ⟨⟨hbrole,hcontent,hposts⟩,hiff⟩ := hb
      by_cases hid : r.id = r₀.id
      · have heq : r = r₀ := ConversationStore.eq_of_id_eq (ConversationStore.mem_messages.mp hr).1
          (ConversationStore.mem_messages.mp (List.mem_of_getLast? hr₀)).1 hid
        subst heq
        refine h.tracks_of_live hc hbuf hr₀ (Bubble.paint_role.trans hbrole)
          (Bubble.paint_of_eq (hiff.mpr rfl)) (fun p hp => ?_)
        rw [Bubble.paint_vm]
        exact hposts p hp
      · rw [Bubble.paint_of_ne (fun hvm => hid (hiff.mp hvm))]
        refine h.tracks_of_stored hr hbrole hcontent hposts (fun k hk hkid => ?_)
        exact hid (hrunning k hk r hr hkid.symm)
    · refine List.pairwise_map.mpr (hvms.imp (fun hne => ?_))
      simpa only [Bubble.paint_vm] using hne
    · intro b hb
      obtain ⟨b',hb',rfl⟩ := List.mem_map.mp hb
      rw [Bubble.paint_vm]
      exact (vm_of_mem_bubbles hb').2
    · intro c' buf' hbuf'
      by_cases hcc : c' = c
      · subst hcc
        rw [setLive_self] at hbuf'
        cases hbuf'
        refine ⟨buf,hbuf,rfl,.inr ⟨rfl,b₀.paint ⟨b₀.vm,buf.content⟩,?_,?_⟩⟩
        · exact (List.getLast?_map ..).trans (congrArg _ hb₀)
        · rw [Bubble.paint_vm]
      · rw [setLive_of_ne hcc,hlive,if_neg hcc,Option.map_eq_some_iff] at hbuf'
        obtain ⟨buf₁,hold,rfl⟩ := hbuf'
        exact ⟨buf₁,hold,rfl,.inl rfl⟩
    · intro c' buf' hold _
      by_cases hcc : c' = c
      · subst hcc
        rw [hbuf] at hold
        cases hold
        exact ⟨_,setLive_self _,rfl,fun _ => rfl⟩
      · refine ⟨buf'.detach,?_,rfl,fun heq => absurd heq hcc⟩
        rw [setLive_of_ne hcc,hlive,if_neg hcc,hold]
        rfl

theorem Coherent.create (h : s.Coherent) : s.create.Coherent := by
  have hdue : ∀ j, Due s.store j → Due s.store.create j := by
    intro j hj
    refine ⟨Nat.lt_succ_of_lt hj.conv_lt,hj.row_lt,hj.convId,fun hc => ?_⟩
    exact hj.last (ConversationStore.mem_of_mem_create hj.conv_lt hc)
  refine { h with
      rows := ?_, active := ?_, pending := fun j hj => hdue j (h.pending j hj),
      running_due := fun k hk => hdue _ (h.running_due k hk), running_listed := ?_,
      running_live := ?_, live_lt := ?_, live_row := ?_ }
  · exact fun r hr => List.mem_cons_of_mem _ (h.rows r hr)
  · exact fun c hc => List.mem_cons_of_mem _ (h.active c hc)
  · intro k hk hc
    exact h.running_listed k hk (ConversationStore.mem_of_mem_create (h.running_due k hk).conv_lt
        hc)
  · intro k hk hc
    exact h.running_live k hk (ConversationStore.mem_of_mem_create (h.running_due k hk).conv_lt hc)
  · exact fun c buf hbuf => Nat.lt_succ_of_lt (h.live_lt c buf hbuf)
  · intro c buf hbuf hc
    exact h.live_row c buf hbuf (ConversationStore.mem_of_mem_create (h.live_lt c buf hbuf) hc)

theorem Coherent.createEmpty (h : s.Coherent) : s.createEmpty.Coherent :=
  h.create.select (List.mem_cons_self ..)

theorem Coherent.delete (h : s.Coherent) (c : ℕ) : (s.delete c).Coherent := by
  have hkept : ∀ c',
      c' ∈ (s.store.delete c).conversations → c' ∈ s.store.conversations ∧ c' ≠ c := by
    intro c' hc'
    simpa [ConversationStore.delete] using hc'
  have hrows : ∀ r ∈ (s.store.delete c).rows, r ∈ s.store.rows ∧ r.convId ≠ c := by
    intro r hr
    simpa [ConversationStore.delete] using hr
  have hactive : ∀ c', (s.delete c).active = some c' → s.active = some c' ∧ s.active ≠ some c := by
    intro c' hc'
    simp only [ChatView.delete] at hc'
    split at hc'
    · cases hc'
    · exact ⟨hc',by assumption⟩
  have hmessages : s.active ≠ some c → (s.delete c).messages = s.messages := fun hne => if_neg hne
  have hlive : ∀ c' buf, (s.delete c).live c' = some buf → c' ≠ c ∧ s.live c' = some buf := by
    intro c' buf hbuf
    by_cases hc' : c' = c
    · rw [hc',ChatView.delete,setLive_self] at hbuf
      cases hbuf
    · rw [ChatView.delete,setLive_of_ne hc'] at hbuf
      exact ⟨hc',hbuf⟩
  have hdue : ∀ j, Due s.store j → Due (s.store.delete c) j := by
    intro j hj
    refine ⟨hj.conv_lt,hj.row_lt,fun r hr => hj.convId r (hrows r hr).1,fun hconv => ?_⟩
    obtain ⟨hconv,hne⟩ := hkept _ hconv
    rw [ConversationStore.messages_delete_of_ne hne]
    exact hj.last hconv
  have hmem : ∀ b ∈ (s.delete c).messages, b ∈ s.messages := by
    intro b hb
    by_cases hc : s.active = some c
    · simp [ChatView.delete,hc] at hb
    · rwa [hmessages hc] at hb
  refine { h with
      rows := ?_, active := ?_, cleared := ?_, tracks := ?_, vms := ?_,
      vm_lt := fun b hb => h.vm_lt b (hmem b hb),
      stored_own := fun r hr => h.stored_own r (hrows r hr).1, pending := ?_,
      running_due := fun k hk => hdue _ (h.running_due k hk), running_listed := ?_,
      running_live := ?_, live_lt := fun c' buf hbuf => h.live_lt c' buf (hlive c' buf hbuf).2,
      live_row := ?_, live_vm := ?_ }
  · intro r hr
    obtain ⟨hr,hne⟩ := hrows r hr
    exact List.mem_filter.mpr ⟨h.rows r hr,by simpa using hne⟩
  · intro c' hc'
    obtain ⟨hc',hne⟩ := hactive c' hc'
    refine List.mem_filter.mpr ⟨h.active c' hc',?_⟩
    rw [hc'] at hne
    simpa using hne
  · intro hnone
    by_cases hc : s.active = some c
    · exact if_pos hc
    · rw [hmessages hc]
      exact h.cleared ((if_neg hc).symm.trans hnone)
  · intro c' hc'
    obtain ⟨hc',hne⟩ := hactive c' hc'
    rw [hmessages hne]
    have hcc : c' ≠ c := fun heq => hne (heq ▸ hc')
    have hsame : (s.delete c).store.messages c' = s.store.messages c' :=
      ConversationStore.messages_delete_of_ne hcc
    rw [hsame]
    exact h.tracks c' hc'
  · by_cases hc : s.active = some c
    · simp [ChatView.delete,hc]
    · rw [hmessages hc]
      exact h.vms
  · intro j hj
    refine hdue j (h.pending j ?_)
    rw [List.mem_append] at hj ⊢
    exact hj.imp_right (fun hj => (List.mem_filter.mp hj).1)
  · intro k hk hconv
    obtain ⟨hconv,hne⟩ := hkept _ hconv
    obtain ⟨j,hj,hjc⟩ := h.running_listed k hk hconv
    exact ⟨j,List.mem_filter.mpr ⟨hj,by simpa [hjc] using hne⟩,hjc⟩
  · intro k hk hconv
    obtain ⟨hconv,hne⟩ := hkept _ hconv
    obtain ⟨buf,hbuf,hsb,hvm⟩ := h.running_live k hk hconv
    refine ⟨buf,?_,hsb,fun hc' => hvm (hactive _ hc').1⟩
    rw [ChatView.delete,setLive_of_ne hne]
    exact hbuf
  · intro c' buf hbuf hconv
    obtain ⟨hconv,hne⟩ := hkept c' hconv
    have hsame : (s.delete c).store.messages c' = s.store.messages c' :=
      ConversationStore.messages_delete_of_ne hne
    rw [hsame]
    exact h.live_row c' buf (hlive c' buf hbuf).2 hconv
  · intro c' buf vm hbuf hvm
    obtain ⟨hne,hbuf⟩ := hlive c' buf hbuf
    obtain ⟨hc',b,hb,hbvm⟩ := h.live_vm c' buf vm hbuf hvm
    have hac : s.active ≠ some c := by
      rw [hc']
      exact fun heq => hne (Option.some.inj heq)
    refine ⟨(if_neg hac).trans hc',b,?_,hbvm⟩
    rw [hmessages hac]
    exact hb

/-! ## Sending -/

theorem Coherent.ensureActive (h : s.Coherent) :
    s.ensureActive.Coherent ∧ s.ensureActive.active = some s.target := by
  unfold ChatView.ensureActive target
  cases hactive : s.active with
  | some c => exact ⟨h,hactive⟩
  | none =>
    have hc := h.create
    have hrows : s.store.create.messages s.store.nextConv = [] := by
      refine ConversationStore.messages_eq_nil (fun r hr heq => ?_)
      have := s.store.known _ (h.rows r hr)
      omega
    refine ⟨{ hc with
        active := ?_, cleared := nofun, tracks := ?_, running_live := ?_, live_vm := ?_ },rfl⟩
    · rintro _ ⟨⟩
      exact List.mem_cons_self ..
    · rintro _ ⟨⟩
      have hnil : s.messages = [] := h.cleared hactive
      rw [show s.create.messages = s.messages from rfl,hnil]
      rw [show s.create.store.messages _ = [] from hrows]
      exact .nil
    · intro k hk hconv
      obtain ⟨buf,hbuf,hsb,-⟩ := hc.running_live k hk hconv
      refine ⟨buf,hbuf,hsb,fun heq => ?_⟩
      have := (h.running_due k hk).conv_lt
      have := Option.some.inj heq
      omega
    · intro c buf vm hbuf hvm
      have := (h.live_vm c buf vm hbuf hvm).1
      rw [hactive] at this
      cases this

/-- A turn is added to a conversation without a pending job. -/
theorem Coherent.addTurn (h : s.Coherent) (hactive : s.active = some c)
    (hfree : ∀ j ∈ s.sending ++ s.jobs, j.convId ≠ c) (text : String) :
    (s.addTurn c text).Coherent := by
  have hc := h.active c hactive
  have hmessages : (s.addTurn c text).store.messages c = s.store.messages c ++
      [⟨s.store.nextId,c,.user,text⟩,⟨s.store.nextId + 1,c,.model,""⟩] := by
    simp only [ChatView.addTurn,ConversationStore.messages_addMessage_self,List.append_assoc]
    rfl
  have hother : ∀ c', c' ≠ c → (s.addTurn c text).store.messages c' = s.store.messages c' := by
    intro c' hne
    simp only [ChatView.addTurn,ConversationStore.messages_addMessage_of_ne hne]
  have hrows : ∀ r ∈ (s.addTurn c text).store.rows, r ∈ s.store.rows ∨
      r = ⟨s.store.nextId,c,.user,text⟩ ∨ r = ⟨s.store.nextId + 1,c,.model,""⟩ := by
    intro r hr
    rcases ConversationStore.mem_addMessage hr with hr | hr
    · exact (ConversationStore.mem_addMessage hr).imp_right .inl
    · exact .inr (.inr hr)
  have hrun : ∀ k, s.running = some k → k.job.convId ≠ c := by
    rintro k hk rfl
    obtain ⟨j,hj,hjc⟩ := h.running_listed k hk hc
    exact hfree j (List.mem_append_right _ hj) hjc
  have hdue : ∀ j, Due s.store j → j.convId ≠ c → Due (s.addTurn c text).store j := by
    intro j hj hne
    refine ⟨hj.conv_lt,Nat.lt_succ_of_lt (Nat.lt_succ_of_lt hj.row_lt),fun r hr hid => ?_,fun
        hconv => ?_⟩
    · have := hj.row_lt
      rcases hrows r hr with hr | rfl | rfl
      · exact hj.convId r hr hid
      · simp only at hid
        omega
      · simp only at hid
        omega
    · rw [hother _ hne]
      exact hj.last hconv
  have hlive : ∀ c' buf, (s.addTurn c text).live c' = some buf →
      c' = c ∧ buf = ⟨s.store.nextId + 1,"",some (s.nextVm + 1)⟩ ∨ c' ≠ c ∧
          s.live c' = some buf := by
    intro c' buf hbuf
    by_cases hc' : c' = c
    · rw [hc',ChatView.addTurn,setLive_self] at hbuf
      exact .inl ⟨hc',(Option.some.inj hbuf).symm⟩
    · rw [ChatView.addTurn,setLive_of_ne hc'] at hbuf
      exact .inr ⟨hc',hbuf⟩
  have hlast : ((s.addTurn c text).store.messages c).getLast? =
      some ⟨s.store.nextId + 1,c,.model,""⟩ := by
    rw [hmessages,List.getLast?_append]
    rfl
  have hnew : ∀ (b : Bubble) (r : MessageRow), b.role = r.role → b.content = r.content →
      (r.role = .model → r.content = "") → s.nextVm ≤ b.vm → s.store.nextId ≤ r.id →
      Tracks s.running s.posts s.said b r := by
    intro b r hrole hcontent hmodel hvm hid
    have hposts : ∀ p ∈ s.posts, b.vm ≠ p.vm := by
      intro p hp heq
      have := h.post_lt p hp
      omega
    have hset : (b.settled s.posts).content = r.content := by
      rw [Bubble.settled_of_forall_ne hposts,hcontent]
    refine { role := hrole, own := fun hr => .inl (hcontent.trans (hmodel hr)), follows := ?_,
             stored := fun _ => hset, posted := fun _ p hp hvm => absurd hvm (hposts p hp),
             silent := fun _ _ _ _ hr => hset.trans hr }
    intro k hk hkid
    have := (h.running_due k hk).row_lt
    omega
  refine { h with
      rows := ?_, active := h.active, cleared := ?_, tracks := ?_, vms := ?_, vm_lt := ?_,
      post_lt := ?_, stored_own := ?_, pending := ?_,
      running_due := fun k hk => hdue _ (h.running_due k hk) (hrun k hk), running_live := ?_,
      live_lt := ?_, live_row := ?_, live_vm := ?_ }
  · intro r hr
    rcases hrows r hr with hr | rfl | rfl
    · exact h.rows r hr
    · exact hc
    · exact hc
  · intro hnone
    rw [show (s.addTurn c text).active = s.active from rfl,hactive] at hnone
    cases hnone
  · intro c' hc'
    have heq : c = c' := Option.some.inj (hactive.symm.trans hc')
    subst heq
    rw [hmessages]
    refine List.rel_append (h.tracks c hactive) (.cons ?_ (.cons ?_ .nil))
    · exact hnew _ _ rfl rfl nofun (Nat.le_refl _) (Nat.le_refl _)
    · exact hnew _ _ rfl rfl (fun _ => rfl) (Nat.le_succ _) (Nat.le_succ _)
  · refine List.pairwise_append.mpr ⟨h.vms,by simp,fun b hb b' hb' => ?_⟩
    have := h.vm_lt b hb
    rcases List.mem_pair.mp hb' with rfl | rfl
    · simp only
      omega
    · simp only
      omega
  · intro b hb
    rcases List.mem_append.mp hb with hb | hb
    · exact Nat.lt_add_right 2 (h.vm_lt b hb)
    · rcases List.mem_pair.mp hb with rfl | rfl
      · exact Nat.lt_add_of_pos_right (by decide)
      · exact Nat.lt_succ_self _
  · exact fun p hp => Nat.lt_add_right 2 (h.post_lt p hp)
  · intro r hr hrole
    rcases hrows r hr with hr | rfl | rfl
    · exact h.stored_own r hr hrole
    · cases hrole
    · exact .inl rfl
  · intro j hj
    rcases List.mem_append.mp hj with hj | hj
    · rcases List.mem_append.mp hj with hj | hj
      · have hj' := List.mem_append_left s.jobs hj
        exact hdue j (h.pending j hj') (hfree j hj')
      · rw [List.mem_singleton.mp hj]
        refine ⟨s.store.known c hc,Nat.lt_succ_self _,fun r hr hid => ?_,fun _ => ⟨_,hlast,rfl,rfl⟩⟩
        rcases hrows r hr with hr | rfl | rfl
        · have := s.store.fresh r hr
          simp only at hid
          omega
        · rfl
        · rfl
    · have hj' := List.mem_append_right s.sending hj
      exact hdue j (h.pending j hj') (hfree j hj')
  · intro k hk hconv
    obtain ⟨buf,hbuf,hsb,hvm⟩ := h.running_live k hk hconv
    refine ⟨buf,?_,hsb,hvm⟩
    rw [ChatView.addTurn,setLive_of_ne (hrun k hk)]
    exact hbuf
  · intro c' buf hbuf
    rcases hlive c' buf hbuf with ⟨rfl,-⟩ | ⟨-,hold⟩
    · exact s.store.known _ hc
    · exact h.live_lt c' buf hold
  · intro c' buf hbuf hconv
    rcases hlive c' buf hbuf with ⟨rfl,rfl⟩ | ⟨hne,hold⟩
    · exact ⟨_,hlast,rfl,.inl rfl,fun _ => ⟨rfl,rfl⟩⟩
    · rw [hother c' hne]
      exact h.live_row c' buf hold hconv
  · intro c' buf vm hbuf hvm
    rcases hlive c' buf hbuf with ⟨rfl,rfl⟩ | ⟨hne,hold⟩
    · refine ⟨hactive,⟨s.nextVm + 1,.model,""⟩,?_,Option.some.inj hvm⟩
      exact List.getLast?_append.trans rfl
    · have := (h.live_vm c' buf vm hold hvm).1
      rw [hactive] at this
      exact absurd (Option.some.inj this).symm hne

theorem Coherent.send (h : s.Coherent) (text : String)
    (hfree : ∀ c, s.active = some c → s.hasPendingFor c = false ∧ ∀ j ∈ s.sending, j.convId ≠ c) :
    (s.send text).Coherent := by
  obtain ⟨hensure,hactive⟩ := h.ensureActive
  refine hensure.addTurn hactive (fun j hj => ?_) text
  unfold target
  have hlists : s.ensureActive.sending ++ s.ensureActive.jobs = s.sending ++ s.jobs := by
    unfold ChatView.ensureActive
    split <;> rfl
  rw [hlists] at hj
  cases hc : s.active with
  | some c =>
    obtain ⟨hjobs,hsending⟩ := hfree c hc
    rcases List.mem_append.mp hj with hj | hj
    · exact hsending j hj
    · have := List.any_eq_false.mp hjobs j hj
      simpa using this
  | none => exact Nat.ne_of_lt (h.pending j hj).conv_lt

theorem Coherent.enqueue (h : s.Coherent) {job : GenJob} (hjob : job ∈ s.sending) :
    (s.enqueue job).Coherent := by
  have hdue := h.pending job (List.mem_append_left _ hjob)
  refine Coherent.kick { h with pending := fun j hj => ?_, running_listed := fun k hk hc => ?_ }
  · rcases List.mem_append.mp hj with hj | hj
    · exact h.pending j (List.mem_append_left _ (List.mem_of_mem_erase hj))
    · rcases List.mem_append.mp hj with hj | hj
      · exact h.pending j (List.mem_append_right _ hj)
      · rw [List.mem_singleton.mp hj]
        exact hdue
  · obtain ⟨j,hj,hjc⟩ := h.running_listed k hk hc
    exact ⟨j,List.mem_append_left _ hj,hjc⟩

theorem Coherent.stop (h : s.Coherent) : s.stop.Coherent := by
  unfold ChatView.stop
  split
  · exact h
  · rename_i c hactive
    split
    · exact h
    · rename_i hne
      refine { h with pending := fun j hj => ?_, running_listed := fun k hk hc => ?_ }
      · refine h.pending j ?_
        rw [List.mem_append] at hj ⊢
        exact hj.imp_right (fun hj => (List.mem_filter.mp hj).1)
      · obtain ⟨j,hj,hjc⟩ := h.running_listed k hk hc
        refine ⟨j,List.mem_filter.mpr ⟨hj,?_⟩,hjc⟩
        have hkc : k.job.convId ≠ c := fun heq => hne (by rw [hk,Option.map_some,heq])
        simp [hjc,hkc]

/-! ## Painting -/

theorem Coherent.paint (h : s.Coherent) : s.paint.Coherent := by
  unfold ChatView.paint
  cases hposts : s.posts with
  | nil => exact h
  | cons p posts =>
    have hp : p ∈ s.posts := hposts ▸ List.mem_cons_self ..
    have htail : ∀ q ∈ posts, q ∈ s.posts := fun q hq => hposts ▸ List.mem_cons_of_mem p hq
    refine { h with
        cleared := ?_, tracks := ?_, vms := ?_, vm_lt := ?_,
        post_lt := fun q hq => h.post_lt q (htail q hq), live_vm := ?_ }
    · intro hnone
      simp only [h.cleared hnone,List.map_nil]
    · intro c hc
      refine List.forall₂_map_left_iff.mpr ((h.tracks c hc).imp (fun b r ht => ?_))
      have hset : (b.paint p).settled posts = b.settled s.posts := by
        rw [hposts,Bubble.settled_cons]
      refine { role := Bubble.paint_role.trans ht.role, own := fun hrole => ?_, follows := ?_,
               stored := ?_, posted := fun hrole q hq hvm => ?_, silent := ?_ }
      · by_cases hvm : b.vm = p.vm
        · rw [Bubble.paint_of_eq hvm]
          exact ht.posted hrole p hp hvm
        · rw [Bubble.paint_of_ne hvm]
          exact ht.own hrole
      · rw [hset]
        exact ht.follows
      · rw [hset]
        exact ht.stored
      · rw [Bubble.paint_vm] at hvm
        exact ht.posted hrole q (htail q hq) hvm
      · rw [hset]
        exact ht.silent
    · refine List.pairwise_map.mpr (h.vms.imp (fun hne => ?_))
      simpa only [Bubble.paint_vm] using hne
    · intro b hb
      obtain ⟨b',hb',rfl⟩ := List.mem_map.mp hb
      rw [Bubble.paint_vm]
      exact h.vm_lt b' hb'
    · intro c buf vm hbuf hvm
      obtain ⟨hc,b,hb,hbvm⟩ := h.live_vm c buf vm hbuf hvm
      refine ⟨hc,b.paint p,?_,Bubble.paint_vm.trans hbvm⟩
      rw [List.getLast?_map,hb]
      rfl

/-! ## Runs -/

theorem coherent_launch {store : ConversationStore} {manifest : List GenJob}
    {said : List (ℕ × String)} (hrows : ∀ r ∈ store.rows, r.convId ∈ store.conversations)
    (hown : ∀ r ∈ store.rows, r.role = .model → OwnText said r.id r.content)
    (hdue : ∀ j ∈ manifest, Due store j) : (launch store manifest said).Coherent := by
  have hjobs : ∀ j ∈ restored store manifest, Due store j := by
    intro j hj
    obtain ⟨j₀,hj₀,rfl⟩ := List.mem_map.mp hj
    have h₀ := hdue j₀ (List.mem_filter.mp hj₀).1
    exact ⟨h₀.conv_lt,h₀.row_lt,h₀.convId,h₀.last⟩
  have hstart : Coherent { store, said, jobs := restored store manifest } :=
    { rows := hrows, active := nofun, cleared := fun _ => rfl, tracks := nofun, vms := .nil,
      vm_lt := List.forall_mem_nil _, post_lt := List.forall_mem_nil _, stored_own := hown,
      pending := hjobs, running_due := nofun, running_own := nofun, running_silent := nofun,
      running_listed := nofun, running_live := nofun, pumping := fun _ => rfl,
      live_lt := nofun, live_row := nofun, live_vm := nofun }
  unfold launch
  simp only
  split
  · exact hstart.createEmpty
  · exact hstart

theorem Coherent.next (h : s.Coherent) {e : ChatAction} (he : s.enabled e) (hc : s.Unhurried e) :
    (s.next e).Coherent := by
  cases e with
  | loadModel => exact Coherent.kick { h with }
  | createEmpty => exact h.createEmpty
  | send text => exact h.send text hc
  | enqueue job => exact h.enqueue he
  | select c => exact h.select he
  | delete c => exact h.delete c
  | stop => exact h.stop
  | token piece =>
    unfold ChatView.next
    cases hk : s.running with
    | none => exact h
    | some k => exact h.token hk piece
  | append text =>
    unfold ChatView.next
    cases hk : s.running with
    | none => exact h
    | some k => exact h.speak hk text
  | mirror => exact h.mirror
  | finish =>
    obtain ⟨k,hk,hphase⟩ := he
    have hk' : s.running = some k := hk
    unfold ChatView.next
    simp only [hk',Option.elim_some]
    exact h.finish hk' hphase (hc k hk')
  | paint => exact h.paint
  | relaunch =>
    exact coherent_launch h.rows h.stored_own (fun j hj => h.pending j (List.mem_append_right _ hj))

end ChatView

/-- The first start of the program. -/
def firstLaunch : ChatView := launch .empty [] []

theorem coherent_firstLaunch : firstLaunch.Coherent :=
  ChatView.coherent_launch (List.forall_mem_nil _) (List.forall_mem_nil _) (List.forall_mem_nil _)

/-- In a run where nothing is sent hurriedly the bubbles on the screen show their own
replies at every moment, and after the last step too. -/
theorem run_faithful {es : List ChatAction} (hr : chatView.Run firstLaunch es)
    (hc : ∀ p ∈ chatView.trail firstLaunch es, p.1.Unhurried p.2) :
    (∀ p ∈ chatView.trail firstLaunch es, p.1.Faithful) ∧
      (chatView.exec firstLaunch es).Faithful := by
  have hstep : ∀ s e, ChatView.Coherent s → chatView.enabled s e → s.Unhurried e →
      (chatView.next s e).Coherent := fun s e h he hc => h.next he hc
  refine ⟨fun p hp => ?_,(hr.invariant_of hstep coherent_firstLaunch hc).faithful⟩
  exact (hr.mem_trail_of hstep coherent_firstLaunch hc hp).1.faithful

/-- A reply is read, left and read again while a second one waits. -/
def awayAndBack : List ChatAction :=
  [.loadModel,.send "Hi",.enqueue ⟨0,1,.queued⟩,.token "a",.paint,.createEmpty,.send "Yo",
    .enqueue ⟨1,3,.queued⟩,.token "b",.select 0,.token "c",.finish,.paint,.select 1,.token "z",
    .paint,.finish]

theorem awayAndBack_faithful :
    (∀ p ∈ chatView.trail firstLaunch awayAndBack, p.1.Faithful) ∧
      (chatView.exec firstLaunch awayAndBack).Faithful :=
  run_faithful (by decide) (by decide)

/-- A second message is sent while the first one is answered. -/
def hurriedSend : List ChatAction :=
  [.loadModel,.send "Hi",.enqueue ⟨0,1,.queued⟩,.token "a",.paint,.send "Yo",.token "b",.paint]

/-- What is generated for the first message shows in the bubble of the second. -/
theorem hurriedSend_not_faithful : chatView.Run firstLaunch hurriedSend ∧
    (chatView.exec firstLaunch hurriedSend).messages.map (·.content) = ["Hi","a","Yo","ab"] ∧
    ¬ (chatView.exec firstLaunch hurriedSend).Faithful := by
  refine ⟨by decide,by decide,fun h => ?_⟩
  have hall := h 0 (by decide)
  have hlast := (List.forall₂_iff_get.mp hall).2 3 (by decide) (by decide)
  have hown := hlast.own (by decide)
  revert hown
  unfold OwnText
  decide

end Rullama.Native
