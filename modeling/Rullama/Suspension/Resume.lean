import Rullama.CoreWorker.Snapshots
import Rullama.Suspension.System

/-! # Resumed generations

The record is taken when the tab is hidden and the cache is saved a little later. In between the
core may take a step, so the file can be ahead of the record. Both are parts of the same
generation, and the position that the cache is restored to tells whether they belong together.
-/
namespace Rullama.Suspension
open Text Transition CoreWorker Web

/-! ## The core -/

section Core
variable {v : Vocabulary} {s : System} {t : Tab} {core : CoreWorker.State}

theorem nextOf_handleStep (token : ℕ) (next : Except String ℕ) :
    (∃ e, System.nextOf (s.handleStep v t token next).2 = .error e ∧
      (s.handleStep v t token next).1 = s.core) ∨
    ∃ n, System.nextOf (s.handleStep v t token next).2 = .ok n ∧
      ∀ ts, tokensOf s.core = some ts →
        tokensOf (s.handleStep v t token next).1 = some (ts ++ [.id token]) := by
  have hstep : ∀ m : Engine, s.core.model = some m → ∀ ts, tokensOf s.core = some ts →
      tokensOf ((s.core.setModel (m.step (.id token))).kvCommit token) =
        some (ts ++ [.id token]) := by
    intro m hm ts hts
    rw [tokensOf,hm] at hts
    cases hts
    exact congrArg some List.map_append
  have hmodel : ∀ m, s.core.requireModel = .ok m → s.core.model = some m :=
    fun m hm => (State.requireModel_ok hm).2
  rw [System.handleStep]
  split
  · rw [State.stepAndDecode]
    cases hm : s.core.requireModel with
    | error e => exact .inl ⟨e,rfl,rfl⟩
    | ok m =>
      cases next with
      | error e => exact .inl ⟨e,rfl,rfl⟩
      | ok n => exact .inr ⟨n,rfl,hstep m (hmodel m hm)⟩
  · rw [State.step]
    cases hm : s.core.requireModel with
    | error e => exact .inl ⟨e,rfl,rfl⟩
    | ok m =>
      cases next with
      | error e => exact .inl ⟨e,rfl,rfl⟩
      | ok n => exact .inr ⟨n,rfl,hstep m (hmodel m hm)⟩

theorem tokensOf_saveKvState (core : CoreWorker.State) (saves : Except String Unit) :
    (core.saveKvState saves).1 = core ∧
      ∀ bytes, (core.saveKvState saves).2 = .ok (.kv bytes) →
        tokensOf core = some (bytes.map Prod.fst) := by
  rw [State.saveKvState]
  cases hm : core.requireModel with
  | error e => exact ⟨rfl,nofun⟩
  | ok m =>
    cases saves with
    | error e => exact ⟨rfl,nofun⟩
    | ok _ =>
      refine ⟨rfl,fun bytes hbytes => ?_⟩
      cases hbytes
      rw [tokensOf,(State.requireModel_ok hm).2]
      rfl

theorem tokensOf_restoreKvState {bytes : KvBytes} {restores : Except String Unit} {r : Result}
    (h : (core.restoreKvState bytes restores).2 = .ok r) :
    tokensOf (core.restoreKvState bytes restores).1 = some (bytes.map Prod.fst) := by
  rw [State.restoreKvState] at h ⊢
  cases hm : core.requireModel with
  | error e =>
    rw [hm] at h
    cases h
  | ok m =>
    cases restores with
    | error e =>
      rw [hm] at h
      cases h
    | ok _ => rfl

theorem tokensOf_clear {n : ℕ} (h : (clear core).2 = .ok n) :
    n = 0 ∧ tokensOf (clear core).1 = some [] := by
  rw [clear,State.reset] at h ⊢
  cases hm : core.requireModel with
  | error e =>
    rw [hm] at h
    cases h
  | ok m =>
    rw [hm] at h
    cases h
    exact ⟨rfl,rfl⟩

theorem tokensOf_prepare {ids : List ℕ} {n : ℕ} (hcore : core.Tracked) (hids : ids ≠ [])
    (h : (prepare core ids).2 = .ok n) :
    n < ids.length ∧ tokensOf (prepare core ids).1 = some (tokens (ids.take n)) := by
  have hclear : ∀ core : CoreWorker.State, (clear core).2 = .ok n →
      n < ids.length ∧ tokensOf (clear core).1 = some (tokens (ids.take n)) := by
    intro core h
    obtain ⟨rfl,hempty⟩ := tokensOf_clear h
    exact ⟨List.length_pos_iff.mpr hids,hempty⟩
  rw [prepare] at h ⊢
  split
  · rename_i after m heq
    rw [heq] at h
    dsimp only at h
    split
    · rename_i hlong
      rw [if_pos hlong] at h
      exact hclear after h
    · rename_i hshort
      rw [if_neg hshort] at h
      cases h
      refine ⟨Nat.lt_of_not_le hshort,?_⟩
      have hreply : (core.kvReusePlan ids).2 = .ok (.reuse n) := by rw [heq]
      obtain ⟨engine,hengine,hholds,_⟩ := State.kvReusePlan_exact hcore hreply
      rw [heq] at hengine
      rw [tokensOf,hengine,Option.map_some,hholds,List.map_map]
      exact congrArg some (List.map_id _)
  · rename_i after reply hother heq
    rw [heq] at h
    split at h
    · rename_i heq'
      cases heq'
      exact (hother _ rfl).elim
    · rename_i heq'
      cases heq'
      exact hclear after h

end Core

/-! ## Records -/

/-- How many tokens a record accounts for. -/
def position (g : InflightGen) : ℕ := g.preEncodePosition + g.emittedTokenCount

variable (v : Vocabulary)

/-- The record of a generation that has fed these tokens. -/
structure Reads (sampled : List (List Token × ℕ)) (g : InflightGen) (fed : List ℕ) : Prop where
  nonempty : g.promptIds ≠ []
  length : fed.length = position g
  bounded : g.preEncodePosition ≤ g.promptIds.length
  prompt : fed.take g.promptIds.length = g.promptIds.take g.preEncodePosition
  text : (fed.drop g.promptIds.length).flatMap (piece v) = g.emittedSoFar
  next : 0 < g.preEncodePosition → (tokens fed,g.lastSampledNext) ∈ sampled

/-- The record of an earlier moment of the generation. -/
def Accounts (sampled : List (List Token × ℕ)) (line : List ℕ) (g : InflightGen) : Prop :=
  ∃ fed, fed <+: line ∧ Reads v sampled g fed

variable {v} {sampled more : List (List Token × ℕ)} {g : InflightGen} {fed line longer : List ℕ}

theorem Reads.mono (h : Reads v sampled g fed) (hmore : sampled ⊆ more) : Reads v more g fed :=
  { h with next := fun hpos => hmore (h.next hpos) }

theorem Accounts.mono (h : Accounts v sampled line g) (hmore : sampled ⊆ more)
    (hline : line <+: longer) : Accounts v more longer g := by
  obtain ⟨fed,hfed,hreads⟩ := h
  exact ⟨fed,hfed.trans hline,hreads.mono hmore⟩

/-- A record that is taken before the whole prompt was fed. -/
theorem Reads.early (h : Reads v sampled g fed) (hpos : g.preEncodePosition < g.promptIds.length) :
    fed = g.promptIds.take g.preEncodePosition ∧ g.emittedTokenCount = 0 ∧
      g.emittedSoFar = [] := by
  have hlength : (fed.take g.promptIds.length).length = g.preEncodePosition := by
    rw [h.prompt,List.length_take]
    exact Nat.min_eq_left h.bounded
  rw [List.length_take] at hlength
  have hshort : fed.length < g.promptIds.length := by omega
  refine ⟨?_,?_,?_⟩
  · rw [← h.prompt,List.take_of_length_le hshort.le]
  · have hfed := h.length
    rw [position] at hfed
    omega
  · rw [← h.text,List.drop_of_length_le hshort.le]
    rfl

theorem Reads.whole (h : Reads v sampled g fed) (hpos : g.preEncodePosition = g.promptIds.length) :
    fed = g.promptIds ++ fed.drop g.promptIds.length := by
  have hprompt := h.prompt
  rw [hpos,List.take_length] at hprompt
  calc fed = fed.take g.promptIds.length ++ fed.drop g.promptIds.length :=
        (List.take_append_drop _ _).symm
    _ = g.promptIds ++ fed.drop g.promptIds.length := by rw [hprompt]

theorem Reads.length_drop (h : Reads v sampled g fed)
    (hpos : g.preEncodePosition = g.promptIds.length) :
    (fed.drop g.promptIds.length).length = g.emittedTokenCount := by
  have hfed := h.length
  rw [position,hpos] at hfed
  rw [List.length_drop,hfed]
  omega

/-! ## Generations that run or are suspended -/

variable (v)

/-- The first `k` tokens of the prompt are fed, and nothing is shown. -/
structure Prompting (core : CoreWorker.State) (bubble : Bubble) (g : InflightGen)
    (emitted k : ℕ) (line : List ℕ) : Prop where
  cache : tokensOf core = some (tokens line)
  line : line = g.promptIds.take k
  bound : k ≤ g.promptIds.length
  emitted : emitted = 0
  count : g.emittedTokenCount = 0
  text : g.emittedSoFar = []
  content : bubble.content = []
  agrees : bubble.Agrees

/-- The tokens `fed` are on record, the cache holds those of `line`, and the pieces of `shown` are
in the bubble but not on record. -/
structure Generating (core : CoreWorker.State) (sampled : List (List Token × ℕ)) (bubble : Bubble)
    (g : InflightGen) (emitted : ℕ) (fed line shown : List ℕ) : Prop where
  cache : tokensOf core = some (tokens line)
  reads : Reads v sampled g fed
  whole : g.preEncodePosition = g.promptIds.length
  emitted : emitted = g.emittedTokenCount + shown.length
  content : bubble.content = g.emittedSoFar ++ shown.flatMap (piece v)
  agrees : bubble.Agrees

/-- How far a tab is. -/
def At (core : CoreWorker.State) (sampled : List (List Token × ℕ)) (bubble : Bubble)
    (line : List ℕ) (t : Tab) : Phase → Request → Prop
  | .restoring,.idle =>
    t.emitted = t.inflight.emittedTokenCount ∧ bubble.content = t.inflight.emittedSoFar ∧
      bubble.pending = []
  | .prompt i,.idle =>
    Prompting core bubble t.inflight t.emitted i line ∧
      (i = t.inflight.promptIds.length → t.inflight.preEncodePosition = i)
  | .prompt i,.posted id =>
    Prompting core bubble t.inflight t.emitted i line ∧ t.inflight.promptIds[i]? = some id
  | .prompt i,.answered (.ok n) =>
    Prompting core bubble t.inflight t.emitted (i + 1) line ∧ (tokens line,n) ∈ sampled
  | .generation _,.idle => Generating v core sampled bubble t.inflight t.emitted line line []
  | .generation _,.posted token =>
    token = t.next ∧ Generating v core sampled bubble t.inflight t.emitted line line [t.next]
  | .generation _,.answered (.ok n) =>
    (∃ fed, line = fed ++ [t.next] ∧
      Generating v core sampled bubble t.inflight t.emitted fed line [t.next]) ∧
        (tokens line,n) ∈ sampled
  | .prompt _,.answered (.error _) => tokensOf core = some (tokens line)
  | .generation _,.answered (.error _) => tokensOf core = some (tokens line) ∧ bubble.Agrees
  | .done,_ => bubble.row = bubble.content
  | .failed,_ => True
  | _,_ => False

structure Runs (s : System) (line : List ℕ) (t : Tab) : Prop where
  accounts : t.phase.active = true → Accounts v s.sampled line t.inflight
  next : t.phase.active = true → t.next = t.inflight.lastSampledNext
  stored : t.phase = .restoring → s.stored = some t.inflight
  at_ : At v s.core s.sampled s.bubble line t t.phase t.request

/-- All that is saved and stored is of one generation, which has come to feed `line`. -/
structure Follows (s : System) (line : List ℕ) : Prop where
  saved : ∀ b, s.file = some b ∨ b ∈ s.writes → b.map Prod.fst <+: tokens line
  stored : ∀ g, s.stored = some g → Accounts v s.sampled line g
  tab : ∀ t, s.tab = some t → Runs v s line t

def Inv (s : System) : Prop := s.tracked = true → ∃ line, Follows v s line

/-- A tab that waits for nothing has fed the prompt up to where it is, shows what it has fed
after that, and goes on with a token that was sampled from this cache. -/
def Rests (s : System) (t : Tab) : Phase → Prop
  | .prompt i =>
    tokensOf s.core = some (tokens (t.inflight.promptIds.take i)) ∧ t.emitted = 0 ∧
      s.bubble.content = [] ∧ s.bubble.Agrees
  | .generation _ =>
    (∃ ts, tokensOf s.core = some (tokens (t.inflight.promptIds ++ ts)) ∧ t.emitted = ts.length ∧
      s.bubble.content = ts.flatMap (piece v) ∧
      (tokens (t.inflight.promptIds ++ ts),t.next) ∈ s.sampled) ∧ s.bubble.Agrees
  | .done => s.bubble.row = s.bubble.content
  | _ => True

def Coherent (s : System) : Prop :=
  s.tracked = true → ∀ t, s.tab = some t → t.request = .idle → Rests v s t t.phase

/-- The cache is restored to the position of the record, and the row has what was on record. -/
def Sound (s : System) : Event → Prop
  | .restore restores _ =>
    s.tracked = true → s.writes = [] →
      ∀ t, s.tab = some t → t.phase = .restoring → ∀ bytes, s.file = some bytes →
        ∀ r, (s.core.restoreKvState bytes restores).2 = .ok r →
          bytes.length = position t.inflight ∧ s.bubble.row = t.inflight.emittedSoFar
  | _ => True

variable {v} {s : System} {t : Tab}

theorem Runs.coherent (h : Runs v s line t) (hidle : t.request = .idle) : Rests v s t t.phase := by
  have hat := h.at_
  rw [hidle] at hat
  cases hphase : t.phase with
  | restoring => trivial
  | prompt i =>
    rw [hphase] at hat
    obtain ⟨hprompt,_⟩ := hat
    exact ⟨hprompt.line ▸ hprompt.cache,hprompt.emitted,hprompt.content,hprompt.agrees⟩
  | rebuild ids i => trivial
  | generation budget =>
    rw [hphase] at hat
    have hline := hat.reads.whole hat.whole
    refine ⟨⟨line.drop t.inflight.promptIds.length,?_,?_,?_,?_⟩,hat.agrees⟩
    · exact hline ▸ hat.cache
    · rw [hat.emitted,hat.reads.length_drop hat.whole]
      rfl
    · rw [hat.content,hat.reads.text]
      exact List.append_nil _
    · rw [← hline,h.next (by rw [hphase]; rfl)]
      refine hat.reads.next ?_
      rw [hat.whole]
      exact List.length_pos_iff.mpr hat.reads.nonempty
  | done =>
    rw [hphase] at hat
    exact hat
  | failed => trivial

theorem Inv.coherent (h : Inv v s) : Coherent v s := by
  intro htracked t htab hidle
  obtain ⟨line,hline⟩ := h htracked
  exact (hline.tab t htab).coherent hidle

/-! ## Steps of a tab -/

variable {line : List ℕ}

/-- What a step may change, with the rest as it is. -/
theorem Follows.move {s' : System} {t' : Tab} (h : Follows v s line)
    (hsaved : ∀ b, s'.file = some b ∨ b ∈ s'.writes → s.file = some b ∨ b ∈ s.writes)
    (hstored : ∀ g, s'.stored = some g → s.stored = some g ∨ Accounts v s'.sampled line g)
    (hsampled : s'.sampled = s.sampled) (htab : s'.tab = some t') (hruns : Runs v s' line t') :
    Follows v s' line := by
  refine ⟨fun b hb => h.saved b (hsaved b hb),fun g hg => ?_,fun t ht => ?_⟩
  · rcases hstored g hg with hold | hnew
    · rw [hsampled]
      exact h.stored g hold
    · exact hnew
  · rw [htab] at ht
    cases ht
    exact hruns

theorem Follows.fail (h : Follows v s line) (t : Tab) : Follows v (s.fail t) line :=
  h.move (fun _ hb => .inr (hb.resolve_left nofun)) nofun rfl rfl ⟨nofun,nofun,nofun,trivial⟩

theorem Follows.finish (h : Follows v s line) (t : Tab) (hagrees : s.bubble.Agrees) :
    Follows v (s.finish t) line :=
  h.move (fun _ hb => .inr (hb.resolve_left nofun)) nofun rfl rfl ⟨nofun,nofun,nofun,hagrees⟩

theorem Follows.post (h : Follows v s line) (htab : s.tab = some t) (hidle : t.request = .idle)
    (late : Bool) : Follows v (s.post v t late) line := by
  have hrun := h.tab t htab
  have hat := hrun.at_
  rw [hidle] at hat
  rw [System.post]
  cases hphase : t.phase with
  | restoring => exact h
  | rebuild ids i =>
    rw [hphase] at hat
    exact hat.elim
  | done => exact h
  | failed => exact h
  | prompt i =>
    have haccounts := hrun.accounts (by rw [hphase]; rfl)
    have hnext := hrun.next (by rw [hphase]; rfl)
    rw [hphase] at hat
    obtain ⟨hprompt,hwhole⟩ := hat
    dsimp only
    cases hid : t.inflight.promptIds[i]? with
    | some id =>
      exact h.move (fun _ hb => hb) (fun _ hg => .inl hg) rfl rfl
        ⟨fun _ => haccounts,fun _ => hnext,nofun,hprompt,hid⟩
    | none =>
      have hi : i = t.inflight.promptIds.length :=
        le_antisymm hprompt.bound (List.getElem?_eq_none_iff.mp hid)
      obtain ⟨fed,hfed,hreads⟩ := haccounts
      have hlength : fed.length = line.length := by
        rw [hreads.length,position,hwhole hi,hprompt.count,hprompt.line,List.length_take]
        omega
      have hline : fed = line := hfed.eq_of_length hlength
      refine h.move (fun _ hb => hb) (fun _ hg => .inl hg) rfl rfl
        ⟨fun _ => ⟨fed,hfed,hreads⟩,fun _ => hnext,nofun,?_⟩
      change At v _ _ _ line _ (.generation _) t.request
      rw [hidle]
      exact ⟨hprompt.cache,hline ▸ hreads,(hwhole hi).trans hi,
        by rw [hprompt.emitted,hprompt.count]; rfl,
        by rw [hprompt.content,hprompt.text]; rfl,hprompt.agrees⟩
  | generation budget =>
    have haccounts := hrun.accounts (by rw [hphase]; rfl)
    have hnext := hrun.next (by rw [hphase]; rfl)
    rw [hphase] at hat
    cases budget with
    | zero => exact h.finish t hat.agrees
    | succ budget =>
      dsimp only
      split
      · exact h.finish t hat.agrees
      · refine h.move (fun _ hb => hb) (fun _ hg => .inl hg) rfl rfl
          ⟨fun _ => haccounts,fun _ => hnext,nofun,rfl,?_⟩
        have hcontent : (s.bubble.write (.emit (piece v t.next))).content =
            t.inflight.emittedSoFar ++ [t.next].flatMap (piece v) := by
          rw [Bubble.write,hat.content,List.flatMap_nil,List.append_nil,List.flatMap_singleton]
        have hagrees : (s.bubble.write (.emit (piece v t.next))).Agrees :=
          (Bubble.write_agrees_iff hat.agrees _).mpr trivial
        refine ⟨hat.cache,hat.reads,hat.whole,?_,?_,?_⟩
        · exact congrArg (· + 1) hat.emitted
        · rw [System.emit]
          dsimp only
          split
          · exact hcontent
          · exact hcontent
        · rw [System.emit]
          dsimp only
          split
          · exact (Bubble.write_agrees_iff hagrees .flush).mpr trivial
          · exact hagrees

theorem Follows.stop (h : Follows v s line) (htab : s.tab = some t) (hidle : t.request = .idle) :
    Follows v (s.stop t) line := by
  have hat := (h.tab t htab).at_
  rw [hidle] at hat
  rw [System.stop]
  cases hphase : t.phase with
  | generation budget =>
    rw [hphase] at hat
    exact h.finish t hat.agrees
  | prompt i => exact h.fail t
  | rebuild ids i => exact h.fail t
  | restoring => exact h
  | done => exact h
  | failed => exact h

theorem sampled_subset (core : CoreWorker.State) (r : Except String ℕ) :
    s.sampled ⊆ System.sample core r ++ s.sampled := List.subset_append_right _ _

theorem Prompting.cons {core core' : CoreWorker.State} {bubble : Bubble} {emitted i id : ℕ}
    (h : Prompting core bubble g emitted i line) (hid : g.promptIds[i]? = some id)
    (hcore : ∀ ts, tokensOf core = some ts → tokensOf core' = some (ts ++ [.id id])) :
    Prompting core' bubble g emitted (i + 1) (line ++ [id]) := by
  obtain ⟨hi,hget⟩ := List.getElem?_eq_some_iff.mp hid
  refine { h with cache := ?_, line := ?_, bound := hi }
  · rw [hcore _ h.cache,tokens,tokens,List.map_append]
    rfl
  · rw [List.take_add_one,hid,← h.line]
    rfl

theorem Follows.answer (h : Follows v s line) (htab : s.tab = some t) {token : ℕ}
    (hposted : t.request = .posted token) (next : Except String ℕ) :
    ∃ longer, Follows v (s.answer v t token next) longer := by
  have hrun := h.tab t htab
  have hat := hrun.at_
  rw [hposted] at hat
  rw [System.answer]
  rcases nextOf_handleStep (v := v) (s := s) (t := t) token next with
    ⟨e,hreply,hcore⟩ | ⟨n,hreply,hcore⟩
  · refine ⟨line,?_⟩
    dsimp only
    rw [hreply,hcore]
    refine h.move (fun _ hb => hb) (fun _ hg => .inl hg) rfl rfl
      ⟨hrun.accounts,hrun.next,hrun.stored,?_⟩
    cases hphase : t.phase with
    | generation budget =>
      rw [hphase] at hat
      exact ⟨hat.2.cache,hat.2.agrees⟩
    | prompt i =>
      rw [hphase] at hat
      exact hat.1.cache
    | restoring =>
      rw [hphase] at hat
      exact hat.elim
    | rebuild ids i =>
      rw [hphase] at hat
      exact hat.elim
    | done =>
      rw [hphase] at hat
      exact hat
    | failed => trivial
  · refine ⟨line ++ [token],?_⟩
    dsimp only
    rw [hreply]
    have hgrows : line <+: line ++ [token] := List.prefix_append _ _
    have hmore := sampled_subset (s := s) (s.handleStep v t token next).1 (.ok n)
    refine ⟨fun b hb => (h.saved b hb).trans (hgrows.map _),
      fun g hg => (h.stored g hg).mono hmore hgrows,fun t' ht' => ?_⟩
    cases ht'
    refine ⟨fun hactive => (hrun.accounts hactive).mono hmore hgrows,hrun.next,hrun.stored,?_⟩
    cases hphase : t.phase with
    | generation budget =>
      rw [hphase] at hat
      obtain ⟨rfl,hgen⟩ := hat
      have hcache := hcore _ hgen.cache
      rw [tokens,← List.map_singleton,← List.map_append] at hcache
      refine ⟨⟨line,rfl,{ hgen with cache := hcache, reads := hgen.reads.mono hmore }⟩,?_⟩
      refine List.mem_append_left _ ?_
      rw [System.sample,hcache]
      exact List.mem_singleton_self _
    | prompt i =>
      rw [hphase] at hat
      have hprompt := hat.1.cons hat.2 hcore
      refine ⟨hprompt,List.mem_append_left _ ?_⟩
      rw [System.sample,hprompt.cache]
      exact List.mem_singleton_self _
    | restoring =>
      rw [hphase] at hat
      exact hat.elim
    | rebuild ids i =>
      rw [hphase] at hat
      exact hat.elim
    | done =>
      rw [hphase] at hat
      exact hat
    | failed => trivial

/-- One more token of the prompt on record. -/
theorem Prompting.reads {core : CoreWorker.State} {bubble : Bubble} {emitted i n : ℕ}
    (h : Prompting core bubble g emitted (i + 1) line) (hn : (tokens line,n) ∈ sampled) :
    Reads v sampled { g with preEncodePosition := i + 1, lastSampledNext := n } line := by
  have hbound := h.bound
  have hlength : line.length = i + 1 := by
    rw [h.line,List.length_take]
    omega
  have hshort : line.length ≤ g.promptIds.length := hlength ▸ hbound
  refine ⟨?_,?_,hbound,?_,?_,fun _ => hn⟩
  · exact List.length_pos_iff.mp (Nat.lt_of_lt_of_le i.succ_pos hbound)
  · rw [hlength,position,h.count]
  · rw [List.take_of_length_le hshort]
    exact h.line
  · rw [List.drop_of_length_le hshort]
    exact h.text.symm

/-- The token that is shown is on record once it was fed. -/
theorem Generating.reads_append {core : CoreWorker.State} {bubble : Bubble} {emitted n x : ℕ}
    (h : Generating v core sampled bubble g emitted fed line [x]) (hline : line = fed ++ [x])
    (hn : (tokens line,n) ∈ sampled) :
    Reads v sampled
      { g with
        emittedSoFar := bubble.content
        emittedTokenCount := emitted
        lastSampledNext := n } line := by
  have hlong : g.promptIds.length ≤ fed.length := by
    rw [h.reads.length,position,h.whole]
    exact Nat.le_add_right _ _
  refine ⟨h.reads.nonempty,?_,h.reads.bounded,?_,?_,fun _ => hn⟩
  · rw [hline,List.length_append,h.reads.length,position,position,h.emitted,Nat.add_assoc]
  · rw [hline,List.take_append_of_le_length hlong]
    exact h.reads.prompt
  · rw [hline,List.drop_append_of_le_length hlong,List.flatMap_append,h.reads.text]
    exact h.content.symm

theorem Follows.reply (h : Follows v s line) (htab : s.tab = some t) {r : Except String ℕ}
    (hanswered : t.request = .answered r) : Follows v (s.reply t r) line := by
  have hrun := h.tab t htab
  have hat := hrun.at_
  rw [hanswered] at hat
  rw [System.reply.eq_def]
  cases hphase : t.phase with
  | prompt i =>
    rw [hphase] at hat
    cases r with
    | error e => exact h.fail t
    | ok n =>
      have hreads := hat.1.reads (v := v) hat.2
      exact h.move (fun _ hb => hb) (fun _ hg => .inl hg) rfl rfl
        ⟨fun _ => ⟨line,List.prefix_rfl,hreads⟩,fun _ => rfl,nofun,{ hat.1 with },fun _ => rfl⟩
  | generation budget =>
    rw [hphase] at hat
    cases r with
    | error e =>
      dsimp only
      split
      · exact h.finish t hat.2
      · exact h.fail t
    | ok n =>
      obtain ⟨⟨fed,hline,hgen⟩,hn⟩ := hat
      have hreads := hgen.reads_append hline hn
      refine h.move (fun _ hb => hb) (fun _ hg => .inl hg) rfl rfl
        ⟨fun _ => ⟨line,List.prefix_rfl,hreads⟩,fun _ => rfl,nofun,?_⟩
      exact ⟨hgen.cache,hreads,hgen.whole,rfl,(List.append_nil _).symm,hgen.agrees⟩
  | restoring =>
    rw [hphase] at hat
    exact hat.elim
  | rebuild ids i =>
    rw [hphase] at hat
    exact hat.elim
  | done =>
    cases r with
    | ok n => exact h
    | error e => exact h.fail t
  | failed =>
    cases r with
    | ok n => exact h
    | error e => exact h.fail t

/-! ## Suspending and resuming -/

theorem Follows.timeout (h : Follows v s line) (htab : s.tab = some t)
    (hactive : t.phase.active = true) : Follows v (s.timeout t) line := by
  rw [System.timeout]
  split
  · exact h.fail t
  · refine ⟨h.saved,fun g hg => ?_,nofun⟩
    cases hg
    exact (h.tab t htab).accounts hactive

theorem Follows.hide (h : Follows v s line) (htab : s.tab = some t)
    (hactive : t.phase.active = true) : Follows v (s.hide t) line := by
  have hrun := h.tab t htab
  refine h.move (fun _ hb => hb) (fun g hg => .inr ?_) rfl htab
    ⟨hrun.accounts,hrun.next,fun _ => rfl,hrun.at_⟩
  cases hg
  exact hrun.accounts hactive

/-- A tab in its loops has the cache of what it has fed. -/
theorem Runs.tokensOf_core (h : Runs v s line t) (hactive : t.phase.active = true)
    (hphase : t.phase ≠ .restoring) : tokensOf s.core = some (tokens line) := by
  have hat := h.at_
  cases hp : t.phase with
  | restoring => exact absurd hp hphase
  | rebuild ids i =>
    rw [hp] at hat
    exact hat.elim
  | done =>
    rw [hp] at hactive
    cases hactive
  | failed =>
    rw [hp] at hactive
    cases hactive
  | prompt i =>
    rw [hp] at hat
    cases hr : t.request with
    | idle =>
      rw [hr] at hat
      exact hat.1.cache
    | posted id =>
      rw [hr] at hat
      exact hat.1.cache
    | answered r =>
      rw [hr] at hat
      cases r with
      | ok n => exact hat.1.cache
      | error e => exact hat
  | generation budget =>
    rw [hp] at hat
    cases hr : t.request with
    | idle =>
      rw [hr] at hat
      exact hat.cache
    | posted token =>
      rw [hr] at hat
      exact hat.2.cache
    | answered r =>
      rw [hr] at hat
      cases r with
      | ok n =>
        obtain ⟨⟨_,_,hgen⟩,_⟩ := hat
        exact hgen.cache
      | error e => exact hat.1

/-- What concerns neither the record nor the cache. -/
theorem Runs.same {s' : System} (h : Runs v s line t) (hcore : s'.core = s.core)
    (hsampled : s'.sampled = s.sampled) (hbubble : s'.bubble = s.bubble)
    (hstored : s'.stored = s.stored) : Runs v s' line t := by
  refine ⟨?_,h.next,?_,?_⟩
  · rw [hsampled]
    exact h.accounts
  · rw [hstored]
    exact h.stored
  · rw [hcore,hsampled,hbubble]
    exact h.at_

theorem Follows.save (h : Follows v s line) (htab : s.tab = some t)
    (hactive : t.phase.active = true) (saves : Except String Unit) :
    Inv v (s.save t saves) := by
  obtain ⟨hcore,hbytes⟩ := tokensOf_saveKvState s.core saves
  intro htracked
  refine ⟨line,?_⟩
  rw [System.save] at htracked ⊢
  dsimp only at htracked ⊢
  split
  · rename_i bytes hreply
    rw [hreply] at htracked
    have hphase : t.phase ≠ .restoring := by
      intro hphase
      rw [hphase] at htracked
      exact absurd (Bool.and_eq_true_iff.mp htracked).2 Bool.false_ne_true
    refine ⟨fun b hb => ?_,h.stored,fun t' ht' => (h.tab t' ht').same hcore rfl rfl rfl⟩
    rcases hb with hb | hb
    · exact h.saved b (.inl hb)
    · rcases List.mem_cons.mp hb with rfl | hb
      · have hcache := (h.tab t htab).tokensOf_core hactive hphase
        rw [hbytes _ hreply] at hcache
        exact Option.some.inj hcache ▸ List.prefix_rfl
      · exact h.saved b (.inr hb)
  · exact ⟨h.saved,h.stored,fun t' ht' => (h.tab t' ht').same hcore rfl rfl rfl⟩

theorem Follows.write (h : Follows v s line) {bytes : KvBytes} (hmem : bytes ∈ s.writes) :
    Follows v (s.write bytes) line := by
  refine ⟨fun b hb => h.saved b (.inr ?_),h.stored,fun t ht => (h.tab t ht).same rfl rfl rfl rfl⟩
  rcases hb with hb | hb
  · cases hb
    exact hmem
  · exact List.mem_of_mem_erase hb

theorem Follows.kill (h : Follows v s line) (torn : Bool) : Follows v (s.kill torn) line := by
  refine ⟨fun b hb => h.saved b (.inl ?_),h.stored,nofun⟩
  have hfile := hb.resolve_right (List.not_mem_nil)
  rw [System.kill] at hfile
  dsimp only at hfile
  split at hfile
  · cases hfile
  · exact hfile

theorem Follows.resume (h : Follows v s line) {g : InflightGen} (hstored : s.stored = some g) :
    Follows v (s.resume g) line :=
  h.move (fun _ hb => hb) (fun _ hg => .inl hg) rfl rfl
    ⟨fun _ => h.stored g hstored,fun _ => rfl,fun _ => hstored,rfl,rfl,rfl⟩

/-- The cache of a record is the file's, when it has the same length. -/
theorem Follows.file_eq (h : Follows v s line) {bytes : KvBytes} (hfile : s.file = some bytes)
    (hfed : fed <+: line) (hlength : bytes.length = fed.length) :
    bytes.map Prod.fst = tokens fed := by
  have hbytes := h.saved bytes (.inl hfile)
  have hline : tokens fed <+: tokens line := hfed.map _
  refine (List.prefix_of_prefix_length_le hbytes hline ?_).eq_of_length ?_
  · rw [List.length_map,tokens,List.length_map,hlength]
  · rw [List.length_map,tokens,List.length_map,hlength]

theorem Follows.fail_core (h : Follows v s line) (core : CoreWorker.State) (t : Tab) :
    Follows v ({ s with core }.fail t) line := by
  refine ⟨fun b hb => h.saved b (.inr (hb.resolve_left nofun)),nofun,fun t' ht' => ?_⟩
  cases ht'
  exact ⟨nofun,nofun,nofun,trivial⟩

theorem Follows.rebuild (h : Follows v s line) (core : CoreWorker.State) (t : Tab)
    (ids : List ℕ) : Inv v ({ s with core }.rebuild t ids) := by
  rw [System.rebuild]
  split
  · exact nofun
  · exact fun _ => ⟨line,h.fail_core _ t⟩

/-- A tab that restores shows what is on record. -/
theorem Runs.restoring (h : Runs v s line t) (hphase : t.phase = .restoring) :
    t.emitted = t.inflight.emittedTokenCount ∧ s.bubble.content = t.inflight.emittedSoFar ∧
      s.bubble.pending = [] := by
  have hat := h.at_
  rw [hphase] at hat
  cases hrequest : t.request with
  | idle =>
    rw [hrequest] at hat
    exact hat
  | posted token =>
    rw [hrequest] at hat
    exact hat.elim
  | answered r =>
    rw [hrequest] at hat
    exact hat.elim

/-- A record and its cache make a tab that can go on. -/
theorem Runs.restored {s' : System} (h : Runs v s line t) (hphase : t.phase = .restoring)
    (hreads : Reads v s.sampled t.inflight fed) (hcache : tokensOf s'.core = some (tokens fed))
    (hsampled : s'.sampled = s.sampled) (hbubble : s'.bubble = s.bubble)
    (hrow : s.bubble.row = t.inflight.emittedSoFar) :
    Runs v s' fed
      { t with
        phase := if t.inflight.preEncodePosition < t.inflight.promptIds.length then
            .prompt t.inflight.preEncodePosition
          else System.remaining t
        request := .idle } := by
  have hactive : t.phase.active = true := by
    rw [hphase]
    rfl
  have hnext := h.next hactive
  obtain ⟨hemitted,hcontent,hpending⟩ := h.restoring hphase
  rw [← hbubble] at hcontent hpending hrow
  rw [← hsampled] at hreads
  have hagrees : s'.bubble.Agrees := by
    rw [Bubble.Agrees,hpending,List.append_nil,hcontent,hrow]
  split
  · rename_i hpre
    obtain ⟨hfed,hcount,htext⟩ := hreads.early hpre
    exact ⟨fun _ => ⟨fed,List.prefix_rfl,hreads⟩,fun _ => hnext,nofun,
      ⟨hcache,hfed,hpre.le,hemitted.trans hcount,hcount,htext,hcontent.trans htext,hagrees⟩,
      fun _ => rfl⟩
  · rename_i hpre
    have hwhole := le_antisymm hreads.bounded (Nat.le_of_not_lt hpre)
    exact ⟨fun _ => ⟨fed,List.prefix_rfl,hreads⟩,fun _ => hnext,nofun,
      hcache,hreads,hwhole,hemitted,hcontent.trans (List.append_nil _).symm,hagrees⟩

/-- A sound restore goes on from the record. -/
theorem Follows.restore (h : Follows v s line) (htab : s.tab = some t)
    (hphase : t.phase = .restoring) (restores : Except String Unit) (ids : List ℕ)
    (hsound : s.writes = [] → ∀ bytes, s.file = some bytes →
      ∀ r, (s.core.restoreKvState bytes restores).2 = .ok r →
        bytes.length = position t.inflight ∧ s.bubble.row = t.inflight.emittedSoFar) :
    Inv v (s.restore t restores ids) := by
  have hrun := h.tab t htab
  rw [System.restore]
  split
  · exact h.rebuild s.core t ids
  · rename_i bytes hfile
    split
    · rename_i core r hrestore
      intro htracked
      have hwrites : s.writes = [] := of_decide_eq_true (Bool.and_eq_true_iff.mp htracked).2
      obtain ⟨hlength,hrow⟩ := hsound hwrites bytes hfile r (by rw [hrestore])
      obtain ⟨fed,hfed,hreads⟩ := hrun.accounts (by rw [hphase]; rfl)
      have htokens := h.file_eq hfile hfed (hlength.trans hreads.length.symm)
      have hcache : tokensOf core = some (tokens fed) := by
        have hrestored : tokensOf (s.core.restoreKvState bytes restores).1 =
            some (bytes.map Prod.fst) := tokensOf_restoreKvState (congrArg Prod.snd hrestore)
        rw [hrestore,htokens] at hrestored
        exact hrestored
      refine ⟨fed,fun b hb => ?_,fun g hg => ?_,fun t' ht' => ?_⟩
      · rcases hb with hb | hb
        · cases hfile.symm.trans hb
          exact htokens ▸ List.prefix_rfl
        · rw [hwrites] at hb
          cases hb
      · cases (hrun.stored hphase).symm.trans hg
        exact ⟨fed,List.prefix_rfl,hreads⟩
      · cases ht'
        exact hrun.restored hphase hreads hcache rfl rfl hrow
    · split
      · exact fun _ => ⟨line,h.fail_core _ t⟩
      · exact h.rebuild _ t ids

/-- Only a sound restore leaves a tab that can go on. -/
theorem Follows.sound_of_coherent (h : Follows v s line) (htab : s.tab = some t)
    (hphase : t.phase = .restoring) {restores : Except String Unit} {ids : List ℕ}
    (htracked : s.tracked = true) (hwrites : s.writes = []) {bytes : KvBytes}
    (hfile : s.file = some bytes) {r : Result}
    (hr : (s.core.restoreKvState bytes restores).2 = .ok r)
    (hcoherent : Coherent v (s.restore t restores ids)) :
    bytes.length = position t.inflight ∧ s.bubble.row = t.inflight.emittedSoFar := by
  have hrun := h.tab t htab
  obtain ⟨hemitted,hcontent,hpending⟩ := hrun.restoring hphase
  obtain ⟨fed,_,hreads⟩ := hrun.accounts (by rw [hphase]; rfl)
  have hcache := tokensOf_restoreKvState hr
  rcases hrestore : s.core.restoreKvState bytes restores with ⟨core,reply⟩
  rw [hrestore] at hr hcache
  dsimp only at hr hcache
  rw [System.restore,hfile] at hcoherent
  dsimp only at hcoherent
  rw [hrestore,hr] at hcoherent
  have hgood := hcoherent (by rw [htracked,hwrites]; rfl) _ rfl rfl
  dsimp only at hgood
  have hrow : s.bubble.Agrees → s.bubble.row = t.inflight.emittedSoFar := by
    intro hagrees
    rw [Bubble.Agrees,hpending,List.append_nil] at hagrees
    exact hagrees.trans hcontent
  split at hgood
  · rename_i hpre
    obtain ⟨hprompt,_,_,hagrees⟩ := hgood
    refine ⟨?_,hrow hagrees⟩
    have hlength := congrArg List.length (Option.some.inj (hcache.symm.trans hprompt))
    rw [List.length_map,tokens,List.length_map,List.length_take] at hlength
    rw [hlength,position,(hreads.early hpre).2.1]
    exact Nat.min_eq_left hpre.le
  · rename_i hpre
    have hwhole := le_antisymm hreads.bounded (Nat.le_of_not_lt hpre)
    obtain ⟨⟨ts,hgenerated,hts,_,_⟩,hagrees⟩ := hgood
    refine ⟨?_,hrow hagrees⟩
    have hlength := congrArg List.length (Option.some.inj (hcache.symm.trans hgenerated))
    rw [List.length_map,tokens,List.length_map,List.length_append] at hlength
    rw [hlength,position,hwhole,← hts]
    exact congrArg _ hemitted

/-! ## Whole runs -/

section Tracked
variable (v s t)

theorem tracked_post (late : Bool) : (s.post v t late).tracked = s.tracked := by
  rw [System.post]
  split
  · split <;> rfl
  · split <;> rfl
  · rfl
  · split <;> rfl
  · rfl

theorem tracked_stop : (s.stop t).tracked = s.tracked := by
  rw [System.stop.eq_def]
  split <;> rfl

theorem tracked_reply (r : Except String ℕ) : (s.reply t r).tracked = s.tracked := by
  rw [System.reply.eq_def]
  split
  · rfl
  · rfl
  · rfl
  · split <;> rfl
  · rfl
  · rfl

theorem tracked_timeout : (s.timeout t).tracked = s.tracked := by
  rw [System.timeout]
  split <;> rfl

end Tracked

theorem tracked_save {saves : Except String Unit} (h : (s.save t saves).tracked = true) :
    s.tracked = true := by
  rw [System.save] at h
  dsimp only at h
  split at h
  · exact (Bool.and_eq_true_iff.mp h).1
  · exact h

theorem tracked_rebuild {core : CoreWorker.State} {ids : List ℕ}
    (h : ({ s with core }.rebuild t ids).tracked = true) : s.tracked = true := by
  rw [System.rebuild] at h
  split at h
  · cases h
  · exact h

theorem tracked_restore {restores : Except String Unit} {ids : List ℕ}
    (h : (s.restore t restores ids).tracked = true) : s.tracked = true := by
  rw [System.restore] at h
  split at h
  · exact tracked_rebuild h
  · split at h
    · exact (Bool.and_eq_true_iff.mp h).1
    · split at h
      · exact h
      · exact tracked_rebuild h

theorem Inv.of_step {s' : System} (h : Inv v s) (htracked : s'.tracked = true → s.tracked = true)
    (hstep : ∀ line, Follows v s line → Inv v s') : Inv v s' := by
  intro h'
  obtain ⟨line,hline⟩ := h (htracked h')
  exact hstep line hline h'

theorem Inv.meet (h : Inv v s) (e : Event) : Inv v (s.meet e) := by
  rw [System.meet.eq_def]
  split
  · split
    · rename_i hmem
      exact h.of_step id (fun line hline _ => ⟨line,hline.write hmem⟩)
    · exact h
  · exact h.of_step id (fun line hline _ => ⟨line,hline.kill _⟩)
  · exact h

theorem inv_move {e : Event} (h : Inv v s) (htab : s.tab = some t) (hsound : Sound s e) :
    Inv v (s.move v t e) := by
  cases e with
  | post late =>
    rw [System.move]
    split
    · rename_i hidle
      exact h.of_step (fun h' => (tracked_post v s t late).symm.trans h')
        (fun line hline _ => ⟨line,hline.post htab hidle late⟩)
    · exact h
  | stop =>
    rw [System.move]
    split
    · rename_i hidle
      exact h.of_step (fun h' => (tracked_stop s t).symm.trans h')
        (fun line hline _ => ⟨line,hline.stop htab hidle⟩)
    · exact h
  | answer next =>
    rw [System.move]
    split
    · rename_i token hposted
      exact h.of_step id (fun line hline _ => hline.answer htab hposted next)
    · exact h
  | reply =>
    rw [System.move]
    split
    · rename_i r hanswered
      exact h.of_step (fun h' => (tracked_reply s t r).symm.trans h')
        (fun line hline _ => ⟨line,hline.reply htab hanswered⟩)
    · exact h
  | timeout =>
    have hstep (hactive : t.phase.active = true) : Inv v (s.timeout t) :=
      h.of_step (fun h' => (tracked_timeout s t).symm.trans h')
        (fun line hline _ => ⟨line,hline.timeout htab hactive⟩)
    rw [System.move]
    split
    · rename_i hphase _
      exact hstep (by rw [hphase]; rfl)
    · rename_i hphase _
      exact hstep (by rw [hphase]; rfl)
    · exact h
  | hide =>
    rw [System.move]
    split
    · rename_i hactive
      exact h.of_step id (fun line hline _ => ⟨line,hline.hide htab hactive⟩)
    · exact h
  | save saves =>
    rw [System.move]
    split
    · rename_i hactive
      exact h.of_step tracked_save
        (fun line hline => hline.save htab (Bool.and_eq_true_iff.mp hactive).1 saves)
    · exact h
  | restore restores ids =>
    rw [System.move]
    split
    · rename_i hphase
      intro htracked
      have htracked' := tracked_restore htracked
      obtain ⟨line,hline⟩ := h htracked'
      exact hline.restore htab hphase restores ids
        (fun hwrites => hsound htracked' hwrites t htab hphase) htracked
    · exact h
  | write bytes => exact h.meet (.write bytes)
  | kill torn => exact h.meet (.kill torn)
  | other rpc => exact h
  | resume => exact h

theorem inv_rest {e : Event} (h : Inv v s) (htab : s.tab = none) : Inv v (s.rest e) := by
  rw [System.rest.eq_def]
  split
  · refine h.of_step id (fun line hline _ => ⟨line,hline.saved,hline.stored,fun t ht => ?_⟩)
    cases htab.symm.trans ht
  · split
    · rename_i hstored
      exact h.of_step id (fun line hline _ => ⟨line,hline.resume hstored⟩)
    · exact h
  · exact h.meet e

theorem inv_next {e : Event} (h : Inv v s) (hsound : Sound s e) : Inv v (s.next v e) := by
  rw [System.next]
  split
  · rename_i htab
    exact inv_move h htab hsound
  · rename_i htab
    exact inv_rest h htab

theorem sound_of_coherent {e : Event} (h : Inv v s) (hcoherent : Coherent v (s.next v e)) :
    Sound s e := by
  cases e with
  | restore restores ids =>
    intro htracked hwrites t htab hphase bytes hfile r hr
    obtain ⟨line,hline⟩ := h htracked
    have hrestored : Coherent v (s.restore t restores ids) := by
      rw [System.next,htab] at hcoherent
      dsimp only at hcoherent
      rw [System.move,hphase] at hcoherent
      exact hcoherent
    exact hline.sound_of_coherent htab hphase htracked hwrites hfile hr hrestored
  | _ => trivial

/-! ## Generations that are suspended and resumed -/

theorem run_machine (s : System) (es : List Event) : (machine v).Run s es := by
  induction es generalizing s with
  | nil => trivial
  | cons e es ih => exact ⟨trivial,ih _⟩

theorem inv_begin {core : CoreWorker.State} (hcore : core.Tracked) {ids : List ℕ} (hids : ids ≠ [])
    (maxTokens : ℕ) : Inv v (begin core ids maxTokens) := by
  intro _
  have hsaved : ∀ (line : List ℕ) (b : KvBytes), (begin core ids maxTokens).file = some b ∨
      b ∈ (begin core ids maxTokens).writes → b.map Prod.fst <+: tokens line := by
    intro line b hb
    rcases hb with hb | hb
    · cases hb
    · cases hb
  cases hprepare : (prepare core ids).2 with
  | error e =>
    refine ⟨[],hsaved [],nofun,fun t ht => ?_⟩
    cases ht
    rw [hprepare]
    exact ⟨nofun,nofun,nofun,trivial⟩
  | ok reuse =>
    obtain ⟨hless,hcache⟩ := tokensOf_prepare hcore hids hprepare
    refine ⟨ids.take reuse,hsaved _,nofun,fun t ht => ?_⟩
    cases ht
    rw [hprepare]
    have hreads : Reads v [] { promptIds := ids, maxTokens } [] :=
      ⟨hids,rfl,Nat.zero_le _,List.take_nil,by rw [List.drop_nil]; rfl,nofun⟩
    exact ⟨fun _ => ⟨[],List.nil_prefix,hreads⟩,fun _ => rfl,nofun,
      ⟨hcache,rfl,hless.le,rfl,rfl,rfl,rfl,rfl⟩,fun h => absurd h hless.ne⟩

/-- However often a generation is suspended and resumed, and whatever comes in between: after every
step the tab goes on from what it has fed and shown exactly when every file that is restored
has the position of its record, and the row has what was on record. -/
theorem resumed_coherent_iff (v : Vocabulary) {core : CoreWorker.State} (hcore : core.Tracked)
    {ids : List ℕ} (hids : ids ≠ []) (maxTokens : ℕ) (es : List Event) :
    (∀ p ∈ (machine v).trail (begin core ids maxTokens) es,
        Coherent v ((machine v).next p.1 p.2)) ↔
      ∀ p ∈ (machine v).trail (begin core ids maxTokens) es, Sound p.1 p.2 := by
  refine (run_machine (begin core ids maxTokens) es).forall_iff (G := Inv v)
    (P := fun s e => Coherent v (s.next v e)) (fun s e h _ hsound => inv_next h hsound)
    (fun s e h _ => ⟨sound_of_coherent h,fun hsound => ?_⟩) (inv_begin hcore hids maxTokens)
  exact (inv_next h hsound).coherent

/-! ## A tab that is hidden during a step -/

def letters : Vocabulary := ⟨fun _ => some "a",fun token => token = 0⟩

def loadArgs : LoadArgs := ⟨"model","weights",none⟩

def weights : ModelFacts := ⟨10,false,false,none,none⟩

/-- A core that has loaded its model. -/
def loaded : CoreWorker.State :=
  { State.initial with model := some (.fresh loadArgs weights 100), residentIds := some [] }

/-- The record is stored before the core has taken the step, the cache is saved after. -/
def hiddenInStep : List Event :=
  [.post false,.answer (.ok 7),.reply,.post false,.post false,.hide,.answer (.ok 8),
    .save (.ok ()),.write [(.id 5,none),(.id 7,none)],.kill false,.other .respawn,
    .other (.load loadArgs ⟨.ok (),.ok (),.ok (weights,100)⟩),.resume,.restore (.ok ()) []]

theorem hiddenInStep_coherent_iff :
    (∀ p ∈ (machine letters).trail (begin loaded [5] 8) hiddenInStep,
        Coherent letters ((machine letters).next p.1 p.2)) ↔
      ∀ p ∈ (machine letters).trail (begin loaded [5] 8) hiddenInStep, Sound p.1 p.2 :=
  resumed_coherent_iff letters
    (fun ids m hids hm => by
      cases hids
      cases hm
      rfl)
    (List.cons_ne_nil 5 []) 8 hiddenInStep

/-- The token of that step is fed once more. -/
example : tokensOf ((machine letters).exec (begin loaded [5] 8)
    (hiddenInStep ++ [.post false,.answer (.ok 8)])).core = some [.id 5,.id 7,.id 7] := by
  decide +kernel

end Rullama.Suspension
