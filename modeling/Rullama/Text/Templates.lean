import Rullama.Text.Parts

/-! # Templates

A template has holes, each shown by the mark of its key. The holes are filled one key after the
other, by a replacement of the key's mark everywhere in the text. That replaces the holes, and
nothing else, exactly where no mark begins at another place of the text.
-/
namespace Rullama.Text

variable {α κ : Type*}

/-! ## Lists of texts -/

section Lists

variable {value w : List α}

theorem intercalate_modifyHead {qs : List (List α)} (hqs : qs ≠ []) :
    value.intercalate (qs.modifyHead (w ++ ·)) = w ++ value.intercalate qs := by
  cases qs with
  | nil => exact absurd rfl hqs
  | cons q qs =>
    cases qs with
    | nil => rw [List.modifyHead_cons,List.intercalate_singleton,List.intercalate_singleton]
    | cons q' qs =>
      rw [List.modifyHead_cons,List.intercalate_cons_cons,List.intercalate_cons_cons]
      simp only [List.append_assoc]

theorem modifyHead_append_cons (c : α) (qs : List (List α)) :
    qs.modifyHead (c :: w ++ ·) = (qs.modifyHead (w ++ ·)).modifyHead (c :: ·) := by
  cases qs <;> rfl

theorem modifyHead_cons_injective (c : α) :
    Function.Injective (List.modifyHead (c :: ·) : List (List α) → List (List α)) := by
  intro ps qs h
  cases ps with
  | nil =>
    cases qs with
    | nil => rfl
    | cons q qs => cases h
  | cons p ps =>
    cases qs with
    | nil => cases h
    | cons q qs =>
      cases h
      rfl

end Lists

/-! ## Pieces -/

inductive Piece (α κ : Type*)
  | letter (c : α)
  | hole (key : κ)
  deriving DecidableEq

variable (mark : κ → List α)

variable (filled : κ → Option (List α))

def Piece.shown : Piece α κ → List α
  | .letter c => [c]
  | .hole key => (filled key).getD (mark key)

def shown (ps : List (Piece α κ)) : List α := ps.flatMap (Piece.shown mark filled)

section Fill

variable [DecidableEq κ]

/-- The next key is filled in. -/
def fillIn (key : κ) (value : List α) (k : κ) : Option (List α) :=
  if k = key then some value else filled k

variable {mark filled} {key : κ} {value : List α} {ps : List (Piece α κ)}

omit [DecidableEq κ] in
theorem shown_cons (p : Piece α κ) :
    shown mark filled (p :: ps) = p.shown mark filled ++ shown mark filled ps := rfl

theorem shown_fillIn_of_ne {p : Piece α κ} (h : p ≠ .hole key) :
    p.shown mark (fillIn filled key value) = p.shown mark filled := by
  cases p with
  | letter c => rfl
  | hole k =>
    have hne : k ≠ key := fun heq => h (congrArg Piece.hole heq)
    rw [Piece.shown,Piece.shown,fillIn,if_neg hne]

end Fill

variable [DecidableEq α]

/-- A template read from the left, but for the first `n` letters: where the mark of a key begins
there is a hole. -/
def template (keys : List κ) : ℕ → List α → List (Piece α κ)
  | _,[] => []
  | n + 1,_ :: s => template keys n s
  | 0,c :: s =>
    match keys.find? (fun key => mark key <+: c :: s) with
    | some key => .hole key :: template keys ((mark key).length - 1) s
    | none => .letter c :: template keys 0 s

variable [DecidableEq κ]

/-- What is shown between the holes of a key. -/
def between (key : κ) : List (Piece α κ) → List (List α)
  | [] => [[]]
  | p :: ps =>
    if p = .hole key then [] :: between key ps
    else (between key ps).modifyHead (p.shown mark filled ++ ·)

/-- The mark of a key begins nowhere else than at its holes. -/
def OnlyAtHoles (key : κ) : List (Piece α κ) → Prop
  | [] => True
  | p :: ps =>
    (p ≠ .hole key → ∀ u v, p.shown mark filled = u ++ v → v ≠ [] →
      ¬mark key <+: v ++ shown mark filled ps) ∧ OnlyAtHoles key ps

variable {mark filled} {keys : List κ} {key : κ} {value m s w : List α} {ps : List (Piece α κ)}

omit [DecidableEq κ] in
/-- A template with no hole filled is shown as it is. -/
theorem shown_template (hmark : ∀ key, mark key ≠ []) (n : ℕ) :
    shown mark (fun _ => none) (template mark keys n s) = s.drop n := by
  induction s generalizing n with
  | nil =>
    rw [template,List.drop_nil]
    rfl
  | cons c s ih =>
    cases n with
    | succ n =>
      rw [template,ih]
      rfl
    | zero =>
      rw [template]
      cases hkey : keys.find? (fun key => mark key <+: c :: s) with
      | none =>
        simp only
        rw [shown,List.flatMap_cons,← shown,ih]
        rfl
      | some key =>
        simp only
        rw [shown,List.flatMap_cons,← shown,ih]
        have hprefix : mark key <+: c :: s := by
          have hfound := List.find?_some hkey
          exact of_decide_eq_true hfound
        obtain ⟨d,rest,hd⟩ := List.exists_cons_of_ne_nil (hmark key)
        rw [hd] at hprefix ⊢
        obtain ⟨t,ht⟩ := hprefix
        rw [List.cons_append,List.cons.injEq] at ht
        obtain ⟨rfl,rfl⟩ := ht
        rw [Piece.shown,Option.getD_none,hd,List.length_cons,Nat.add_sub_cancel,List.drop_left]
        rfl

theorem between_ne_nil : between mark filled key ps ≠ [] := by
  induction ps with
  | nil => exact List.cons_ne_nil _ _
  | cons p ps ih =>
    rw [between]
    split
    · exact List.cons_ne_nil _ _
    · intro h
      exact ih (List.modifyHead_eq_nil_iff.mp h)

/-- A value put between the texts between the holes fills the holes. -/
theorem intercalate_between :
    value.intercalate (between mark filled key ps) = shown mark (fillIn filled key value) ps := by
  induction ps with
  | nil => rfl
  | cons p ps ih =>
    rw [between,shown_cons]
    split
    · rename_i hp
      have hne : between mark filled key ps ≠ [] := between_ne_nil
      obtain ⟨q,qs,hqs⟩ := List.exists_cons_of_ne_nil hne
      rw [hqs] at ih ⊢
      rw [List.intercalate_cons_cons,List.nil_append,ih,hp,Piece.shown,fillIn,if_pos rfl,
        Option.getD_some]
    · rename_i hp
      rw [intercalate_modifyHead between_ne_nil,ih,shown_fillIn_of_ne hp]

/-! ## Where the marks begin -/

theorem parts_ne_nil : parts m s ≠ [] := List.concat_ne_nil _ _

theorem parts_of_isPrefix (hm : m ≠ []) (h : m <+: s) :
    ∃ qs, parts m s = [] :: qs := by
  obtain ⟨t,rfl⟩ := h
  exact ⟨_,parts_append_marker hm t⟩

/-- The marker begins nowhere in a text exactly where the text only lengthens the first part. -/
theorem parts_append_iff (hm : m ≠ []) {qs : List (List α)} :
    parts m (w ++ s) = qs.modifyHead (w ++ ·) ↔
      (∀ u v, w = u ++ v → v ≠ [] → ¬m <+: v ++ s) ∧ parts m s = qs := by
  induction w with
  | nil =>
    have hhead : qs.modifyHead (fun q => [] ++ q) = qs := by cases qs <;> rfl
    rw [hhead,List.nil_append]
    refine ⟨fun h => ⟨fun u v huv hv => ?_,h⟩,And.right⟩
    exact absurd (List.append_eq_nil_iff.mp huv.symm).2 hv
  | cons c w ih =>
    have hcons : (∀ u v, c :: w = u ++ v → v ≠ [] → ¬m <+: v ++ s) ↔
        ¬m <+: c :: (w ++ s) ∧ ∀ u v, w = u ++ v → v ≠ [] → ¬m <+: v ++ s := by
      constructor
      · intro h
        refine ⟨h [] (c :: w) rfl (List.cons_ne_nil _ _),fun u v huv hv => ?_⟩
        exact h (c :: u) v (congrArg (c :: ·) huv) hv
      · rintro ⟨hhere,hlater⟩ u v huv hv
        cases u with
        | nil =>
          rw [List.nil_append] at huv
          rw [← huv]
          exact hhere
        | cons d u =>
          rw [List.cons_append,List.cons.injEq] at huv
          exact hlater u v huv.2 hv
    rw [hcons,modifyHead_append_cons,List.cons_append]
    by_cases hhere : m <+: c :: (w ++ s)
    · obtain ⟨rest,hrest⟩ := parts_of_isPrefix hm hhere
      refine iff_of_false (fun h => ?_) fun h => h.1.1 hhere
      rw [hrest] at h
      cases hq : qs.modifyHead (w ++ ·) with
      | nil =>
        rw [hq] at h
        cases h
      | cons q qs' =>
        rw [hq] at h
        cases h
    · rw [parts_cons hm hhere,(modifyHead_cons_injective c).eq_iff,ih]
      exact ⟨fun h => ⟨⟨hhere,h.1⟩,h.2⟩,fun h => ⟨h.1.2,h.2⟩⟩

/-- The text is cut at the holes of a key exactly where the key's mark begins nowhere else. -/
theorem parts_eq_between_iff (hmark : mark key ≠ []) (hfilled : filled key = none) :
    parts (mark key) (shown mark filled ps) = between mark filled key ps ↔
      OnlyAtHoles mark filled key ps := by
  induction ps with
  | nil =>
    refine iff_of_true ?_ trivial
    have hcut : cut (mark key) [] = none := by rw [cut,if_neg hmark]
    exact parts_of_cut_eq_none hcut
  | cons p ps ih =>
    rw [shown_cons,between,OnlyAtHoles]
    by_cases hp : p = .hole key
    · subst hp
      rw [if_pos rfl,Piece.shown,hfilled,Option.getD_none,parts_append_marker hmark,
        List.cons.injEq,ih]
      exact ⟨fun h => ⟨fun hne => absurd rfl hne,h.2⟩,fun h => ⟨rfl,h.2⟩⟩
    · rw [if_neg hp,parts_append_iff hmark,ih]
      exact ⟨fun h => ⟨fun _ => h.1,h.2⟩,fun h => ⟨h.1 hp,h.2⟩⟩

end Rullama.Text
