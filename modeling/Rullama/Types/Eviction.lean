import Rullama.Cache.Eviction
import Rullama.Types.WorkingSet

/-! # Room for a new file

A file that is added to the working set takes the place of files that were not used for longest, as
many as it needs to, and of none that is pinned.
-/
namespace Rullama.Types.WorkingSet
open Cache (Policy)
open Cache.Policy (Evicted)

variable {P : Type} {lossy : P → String}

/-- `(last_access_turn, access_count)` -/
def usage (kv : String × WorkingSetEntry P) : ℕ ×ₗ ℕ :=
  toLex (kv.2.lastAccessTurn,kv.2.accessCount)

def policy : Policy (String × WorkingSetEntry P) String (ℕ ×ₗ ℕ) where
  key := Prod.fst
  pinned kv := kv.2.pinned
  usage := usage

/-- There is room for a file of so many tokens. -/
def Fits (config : WorkingSetConfig) (newTokens : ℕ) (entries : Entries P) : Prop :=
  entries.length < config.maxFiles ∧ usize (totalTokens entries + newTokens) ≤ config.maxTokens

/-- After the addition of a new file: it is there, and what was removed for it was not pinned, not
used more than what is left, and not removed where there was room already. -/
structure MakesRoom (ws after : WorkingSet P) (kv : String × WorkingSetEntry P) : Prop where
  present : kv ∈ after.entries
  pinned : ∀ x ∈ ws.entries, x.2.pinned = true → x ∈ after.entries
  least : ∀ x ∈ ws.entries, x ∉ after.entries → ∀ y ∈ after.entries, y ≠ kv → y.2.pinned = false →
    usage x ≤ usage y
  minimal : ∃ removed left, after.entries = left ++ [kv] ∧
    policy.Evicted (fun l => ¬ Fits ws.config kv.2.tokens l) ws.entries removed left
  overfull : ws.config.maxFiles < after.entries.length ∨
    ws.config.maxTokens < totalTokens after.entries →
    ∀ y ∈ after.entries, y ≠ kv → y.2.pinned = true

variable {ws : WorkingSet P} {order : Order P} {entries : Entries P} {n : ℕ}

/-! ## The loops -/

theorem candidate_of_find {kv : String × WorkingSetEntry P}
    (h : findLruCandidate order entries = some kv) : policy.Candidate entries kv := by
  rw [findLruCandidate] at h
  have hmem := List.mem_filter.mp (List.argmin_mem h)
  have hnot : kv.2.pinned = false := by simpa using hmem.2
  refine ⟨(order.perm entries).subset hmem.1,hnot,fun y hy hpin => ?_⟩
  have hpin : y.2.pinned = false := hpin
  have hin : y ∈ (order.arrange entries).filter (fun kv => !kv.2.pinned) :=
    List.mem_filter.mpr ⟨(order.perm entries).symm.subset hy,by rw [hpin]; rfl⟩
  exact List.le_of_mem_argmin hin h

theorem pinned_of_find (h : findLruCandidate order entries = none) :
    ∀ kv ∈ entries, kv.2.pinned = true := by
  rw [findLruCandidate,List.argmin_eq_none,List.filter_eq_nil_iff] at h
  intro kv hkv
  have hnot := h kv ((order.perm entries).symm.subset hkv)
  simpa using hnot

/-- A loop removes candidates as long as the limit is exceeded and there are any. -/
theorem evictWhile_evicted (lossy : P → String) (overLimit : Entries P → Bool) (order : Order P)
    (st : Entries P × List String) (hn : st.1.length ≤ n) :
    (∃ removed, policy.Evicted (fun l => overLimit l = true) st.1 removed
      (evictWhile lossy overLimit order n st).1) ∧
    (overLimit (evictWhile lossy overLimit order n st).1 = true →
      ∀ kv ∈ (evictWhile lossy overLimit order n st).1, kv.2.pinned = true) := by
  induction n generalizing st with
  | zero =>
    refine ⟨⟨[],.done⟩,fun _ kv hkv => ?_⟩
    rw [evictWhile,List.length_eq_zero_iff.mp (Nat.le_zero.mp hn)] at hkv
    cases hkv
  | succ n ih =>
    rw [evictWhile]
    cases hover : overLimit st.1 with
    | false => exact ⟨⟨[],.done⟩,fun h => by simp_all⟩
    | true =>
      simp only [if_true]
      cases hfind : findLruCandidate order st.1 with
      | none => exact ⟨⟨[],.done⟩,fun _ => pinned_of_find hfind⟩
      | some kv =>
        have hcand := candidate_of_find hfind
        have hlt := Cache.Policy.length_without_lt (p := policy) hcand.1
        obtain ⟨⟨removed,hremoved⟩,hend⟩ := ih
          (st.1.filter (fun e => e.1 ≠ kv.1),st.2 ++ [lossy kv.2.path])
          (Nat.le_of_lt_succ (Nat.lt_of_lt_of_le hlt hn))
        exact ⟨⟨kv :: removed,.evict hover hcand hremoved⟩,hend⟩

theorem maybeEvict_evicted (lossy : P → String) (ws : WorkingSet P) (order : Order P) (newTokens : ℕ) :
    let left := (ws.maybeEvict lossy order newTokens).entries
    (∃ removed, policy.Evicted (fun l => ¬ Fits ws.config newTokens l) ws.entries removed left) ∧
      (¬ Fits ws.config newTokens left → ∀ kv ∈ left, kv.2.pinned = true) := by
  let overFiles (l : Entries P) : Bool := l.length ≥ ws.config.maxFiles
  let overTokens (l : Entries P) : Bool :=
    usize (totalTokens l + newTokens) > ws.config.maxTokens
  let first := evictWhile lossy overFiles order ws.entries.length (ws.entries,[])
  let second := evictWhile lossy overTokens order first.1.length first
  have hleft : (ws.maybeEvict lossy order newTokens).entries = second.1 := rfl
  obtain ⟨⟨xs,hxs⟩,hfirst⟩ := evictWhile_evicted lossy overFiles order
    (ws.entries,[]) (Nat.le_refl _)
  obtain ⟨⟨ys,hys⟩,hsecond⟩ := evictWhile_evicted lossy overTokens order first
    (Nat.le_refl _)
  have hfiles (l : Entries P) (hl : overFiles l = true) : ¬ Fits ws.config newTokens l :=
    fun hfits => absurd hfits.1 (Nat.not_lt.mpr (of_decide_eq_true hl))
  have htokens (l : Entries P) (hl : overTokens l = true) : ¬ Fits ws.config newTokens l :=
    fun hfits => absurd hfits.2 (Nat.not_le.mpr (of_decide_eq_true hl))
  have hsub : second.1.Sublist first.1 := hys.sublist
  dsimp only
  rw [hleft]
  refine ⟨⟨xs ++ ys,(hxs.mono hfiles).trans (hys.mono htokens)⟩,fun hnot kv hkv => ?_⟩
  rcases not_and_or.mp hnot with hlen | hsum
  · have hover : overFiles first.1 = true :=
      decide_eq_true (Nat.le_trans (Nat.not_lt.mp hlen) hsub.length_le)
    exact hfirst hover kv (hsub.subset hkv)
  · exact hsecond (decide_eq_true (Nat.not_le.mp hsum)) kv hkv

/-! ## The addition -/

theorem totalTokens_insert (kv : String × WorkingSetEntry P) :
    totalTokens (entries ++ [kv]) = usize (totalTokens entries + kv.2.tokens) := by
  simp [totalTokens,usize,Nat.mod_add_mod]

theorem over_iff (config : WorkingSetConfig) (kv : String × WorkingSetEntry P) :
    config.maxFiles < (entries ++ [kv]).length ∨ config.maxTokens < totalTokens (entries ++ [kv]) ↔
      ¬ Fits config kv.2.tokens entries := by
  rw [totalTokens_insert,List.length_append,List.length_singleton,Fits,not_and_or,Nat.not_lt,
    Nat.not_le,Nat.lt_succ_iff]

theorem maybeEvict_makesRoom (hkeys : (ws.entries.map Prod.fst).Nodup)
    (kv : String × WorkingSetEntry P) :
    MakesRoom ws ((ws.maybeEvict lossy order kv.2.tokens).insert kv.1 kv.2) kv := by
  obtain ⟨⟨removed,hremoved⟩,hpinned⟩ :=
    maybeEvict_evicted lossy ws order kv.2.tokens
  have hafter : ((ws.maybeEvict lossy order kv.2.tokens).insert kv.1 kv.2).entries =
      (ws.maybeEvict lossy order kv.2.tokens).entries ++ [kv] := rfl
  have hold {y : String × WorkingSetEntry P}
      (hy : y ∈ (ws.maybeEvict lossy order kv.2.tokens).entries ++ [kv]) (hne : y ≠ kv) :
      y ∈ (ws.maybeEvict lossy order kv.2.tokens).entries := by
    rcases List.mem_append.mp hy with hy | hy
    · exact hy
    · exact absurd (List.mem_singleton.mp hy) hne
  refine ⟨?_,?_,?_,⟨removed,_,hafter,hremoved⟩,?_⟩
  · rw [hafter]
    exact List.mem_append_right _ (List.mem_singleton_self kv)
  · intro x hx hpin
    rw [hafter]
    exact List.mem_append_left _ (hremoved.spares hkeys hx hpin)
  · intro x hx hgone y hy hne hpin
    rw [hafter] at hgone hy
    rcases hremoved.left_or_removed hkeys hx with hleft | hout
    · exact absurd (List.mem_append_left _ hleft) hgone
    · exact hremoved.least hout (hold hy hne) hpin
  · intro hover y hy hne
    rw [hafter] at hover hy
    exact hpinned ((over_iff ws.config kv).mp hover) y (hold hy hne)

/-- In every working set that is reached, the addition of a file that is not in it makes room for
it, in whatever order the map is walked through. -/
theorem add_makesRoom {config : WorkingSetConfig}
    (h : (machine lossy).Reachable (withConfig config) ws) {path : P}
    (hnew : ws.contains lossy path = false) (tokens : ℕ) (order : Order P) (label : String) :
    MakesRoom ws (ws.add lossy path tokens order)
        (lossy path,.new path tokens ws.currentTurn) ∧
      MakesRoom ws (ws.addLabeled lossy path tokens label order)
        (lossy path,(WorkingSetEntry.new path tokens ws.currentTurn).withLabel label) := by
  have hkeys := keys_nodup h
  rw [add,addLabeled,hnew,if_neg Bool.false_ne_true,if_neg Bool.false_ne_true]
  exact ⟨maybeEvict_makesRoom hkeys (lossy path,.new path tokens ws.currentTurn),
    maybeEvict_makesRoom hkeys
      (lossy path,(WorkingSetEntry.new path tokens ws.currentTurn).withLabel label)⟩

/-- One of the two files that there may be is pinned. -/
def twoFiles : List (Op String) :=
  [.addPinned "/src/main.rs" 100 none,.nextTurn,.add "/src/lib.rs" 100 listed]

/-- A third one takes the place of the other. -/
theorem third_file_makesRoom :
    let ws := (machine id).exec (withConfig { maxFiles := 2 }) twoFiles
    MakesRoom ws (ws.add id "/src/new.rs" 50 listed)
        ("/src/new.rs",.new "/src/new.rs" 50 ws.currentTurn) ∧
      MakesRoom ws (ws.addLabeled id "/src/new.rs" 50 "entry" listed)
        ("/src/new.rs",(WorkingSetEntry.new "/src/new.rs" 50 ws.currentTurn).withLabel "entry") :=
  add_makesRoom ⟨twoFiles,⟨trivial,trivial,trivial,trivial⟩,rfl⟩ (by decide +kernel) 50 listed
    "entry"

end Rullama.Types.WorkingSet
