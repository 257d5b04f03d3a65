import Mathlib.Data.List.Induction
import Mathlib.Data.List.Nodup
import Mathlib.Order.WellFounded

/-! # Forests of linked nodes

Nodes that list what is below them and name their parent, each parent before its children.
-/
namespace Rullama.Forest

/-- `below none` are the roots, `below (some a)` the children of `a`. -/
@[ext]
structure Links (α : Type*) where
  carrier : Set α
  parent : α → Option α
  below : Option α → List α

namespace Links

variable {α : Type*}

section Definitions

variable (L : Links α)

structure WellFormed [LT α] : Prop where
  mem_below : ∀ p c, c ∈ L.below p ↔ c ∈ L.carrier ∧ L.parent c = p
  nodup : ∀ p, (L.below p).Nodup
  parent_mem : ∀ c ∈ L.carrier, ∀ p, L.parent c = some p → p ∈ L.carrier
  parent_lt : ∀ c ∈ L.carrier, ∀ p, L.parent c = some p → p < c

/-- The nodes on a way down from a root. -/
inductive IsPath : List α → Prop
  | nil : IsPath []
  | snoc {x : List α} {a : α} (hx : IsPath x) (ha : a ∈ L.below x.getLast?) : IsPath (x ++ [a])

/-- Depth first: a node before all that is under it, and all under a node before all under its
later siblings. -/
def Before (x y : List α) : Prop :=
  (∃ b t, y = x ++ b :: t) ∨
    ∃ c a b s t, x = c ++ a :: s ∧ y = c ++ b :: t ∧ [a,b].Sublist (L.below c.getLast?)

/-- The paths under `p` in depth-first order, where nothing is listed under a node that is cut. -/
structure Lists (cut : α → Prop) (p : List α) (paths : List (List α)) : Prop where
  mem : ∀ x, x ∈ paths ↔ ∃ s, s ≠ [] ∧ x = p ++ s ∧ L.IsPath x ∧ ∀ a ∈ s.dropLast, ¬ cut a
  ordered : paths.Pairwise L.Before

def attach [DecidableEq α] (p : Option α) (c : α) : Links α :=
  ⟨insert c L.carrier,Function.update L.parent c p,Function.update L.below p (L.below p ++ [c])⟩

end Definitions

variable {L : Links α} {x y p s : List α} {a : α}

/-! ## Paths -/

theorem isPath_snoc : L.IsPath (x ++ [a]) ↔ L.IsPath x ∧ a ∈ L.below x.getLast? := by
  constructor
  · intro h
    generalize hy : x ++ [a] = y at h
    cases h with
    | nil => exact absurd hy (by simp)
    | snoc hx ha =>
      obtain ⟨rfl,hlast⟩ := List.append_inj' hy rfl
      cases hlast
      exact ⟨hx,ha⟩
  · exact fun h => h.1.snoc h.2

theorem IsPath.of_append (h : L.IsPath (p ++ s)) : L.IsPath p := by
  induction s using List.reverseRecOn with
  | nil => rwa [List.append_nil] at h
  | append_singleton s a ih =>
    rw [← List.append_assoc] at h
    exact ih (isPath_snoc.mp h).1

section WellFormed

variable [LT α] (hL : L.WellFormed)
include hL

theorem WellFormed.parent_eq (h : L.IsPath (x ++ [a])) : L.parent a = x.getLast? :=
  ((hL.mem_below _ _).mp (isPath_snoc.mp h).2).2

theorem WellFormed.mem_carrier (h : L.IsPath x) (ha : a ∈ x) : a ∈ L.carrier := by
  induction h with
  | nil => cases ha
  | snoc hx hb ih =>
    rcases List.mem_append.mp ha with ha | ha
    · exact ih ha
    · rw [List.mem_singleton.mp ha]
      exact ((hL.mem_below _ _).mp hb).1

theorem WellFormed.path_unique (hx : L.IsPath x) (hy : L.IsPath y)
    (h : x.getLast? = y.getLast?) : x = y := by
  induction hx generalizing y with
  | nil => exact (List.getLast?_eq_none_iff.mp h.symm).symm
  | @snoc x a hx ha ih =>
    cases hy with
    | nil => simp at h
    | @snoc y b hy hb =>
      rw [List.getLast?_concat,List.getLast?_concat,Option.some.injEq] at h
      subst h
      have hparent : x.getLast? = y.getLast? :=
        (hL.parent_eq (hx.snoc ha)).symm.trans (hL.parent_eq (hy.snoc hb))
      rw [ih hy hparent]

theorem WellFormed.exists_path [WellFoundedLT α] (ha : a ∈ L.carrier) :
    ∃ x, L.IsPath (x ++ [a]) := by
  induction a using WellFoundedLT.induction with
  | ind a ih =>
    have hmem := (hL.mem_below (L.parent a) a).mpr ⟨ha,rfl⟩
    cases hp : L.parent a with
    | none =>
      rw [hp] at hmem
      exact ⟨[],IsPath.nil.snoc hmem⟩
    | some q =>
      obtain ⟨x,hx⟩ := ih q (hL.parent_lt a ha q hp) (hL.parent_mem a ha q hp)
      refine ⟨x ++ [q],hx.snoc ?_⟩
      rwa [hp,← List.getLast?_concat (l := x)] at hmem

theorem WellFormed.before_ne (h : L.Before x y) : x ≠ y := by
  rcases h with ⟨b,t,rfl⟩ | ⟨c,a,b,s,t,rfl,rfl,hab⟩
  · exact fun h => List.cons_ne_nil b t (List.self_eq_append_right.mp h)
  · intro h
    obtain ⟨rfl,-⟩ := List.cons.inj (List.append_cancel_left h)
    have hnodup := (hL.nodup c.getLast?).sublist hab
    simp at hnodup

/-! ## Listings -/

/-- In a listing no two paths end in the same node. -/
theorem Lists.nodup_last {cut : α → Prop} {paths : List (List α)} (h : L.Lists cut p paths) :
    (paths.map List.getLast?).Nodup := by
  rw [List.Nodup,List.pairwise_map]
  refine List.Pairwise.imp_of_mem (fun hx hy hxy heq => ?_) h.ordered
  obtain ⟨-,-,-,hpx,-⟩ := (h.mem _).mp hx
  obtain ⟨-,-,-,hpy,-⟩ := (h.mem _).mp hy
  exact hL.before_ne hxy (hL.path_unique hpx hpy heq)

end WellFormed

/-- What is under `p` is listed by listing, child by child, the child and what is under it. -/
theorem Lists.flatMap {cut : α → Prop} {rest : α → List (List α)}
    (hrest : ∀ a ∈ L.below p.getLast?,
      (cut a → rest a = []) ∧ (¬ cut a → L.Lists cut (p ++ [a]) (rest a))) (hp : L.IsPath p) :
    L.Lists cut p ((L.below p.getLast?).flatMap (fun a => (p ++ [a]) :: rest a)) := by
  have hunder : ∀ a ∈ L.below p.getLast?, ∀ y ∈ rest a, ¬ cut a ∧ ∃ s, s ≠ [] ∧
      y = p ++ a :: s ∧ L.IsPath y ∧ ∀ b ∈ s.dropLast, ¬ cut b := by
    intro a ha y hy
    by_cases hcut : cut a
    · rw [(hrest a ha).1 hcut] at hy
      cases hy
    · obtain ⟨s,hs,hys,hpath,hcuts⟩ := (((hrest a ha).2 hcut).mem y).mp hy
      exact ⟨hcut,s,hs,by rw [hys,List.append_assoc]; rfl,hpath,hcuts⟩
  have hstart : ∀ a ∈ L.below p.getLast?, ∀ y ∈ (p ++ [a]) :: rest a, ∃ s, y = p ++ a :: s := by
    intro a ha y hy
    rcases List.mem_cons.mp hy with rfl | hy
    · exact ⟨[],rfl⟩
    · obtain ⟨-,s,-,hys,-⟩ := hunder a ha y hy
      exact ⟨s,hys⟩
  refine ⟨fun x => ?_,?_⟩
  · rw [List.mem_flatMap]
    constructor
    · rintro ⟨a,ha,hx⟩
      rcases List.mem_cons.mp hx with rfl | hx
      · exact ⟨[a],List.cons_ne_nil a [],rfl,hp.snoc ha,nofun⟩
      · obtain ⟨hcut,s,hs,hxs,hpath,hcuts⟩ := hunder a ha x hx
        refine ⟨a :: s,List.cons_ne_nil a s,hxs,hpath,?_⟩
        rw [List.dropLast_cons_of_ne_nil hs]
        exact List.forall_mem_cons.mpr ⟨hcut,hcuts⟩
    · rintro ⟨s,hs,rfl,hpath,hcuts⟩
      cases s with
      | nil => exact absurd rfl hs
      | cons a s =>
        have ha : a ∈ L.below p.getLast? := by
          rw [List.append_cons] at hpath
          exact (isPath_snoc.mp hpath.of_append).2
        refine ⟨a,ha,?_⟩
        by_cases hs : s = []
        · rw [hs]
          exact List.mem_cons_self
        · rw [List.dropLast_cons_of_ne_nil hs] at hcuts
          obtain ⟨hcut,hcuts⟩ := List.forall_mem_cons.mp hcuts
          refine List.mem_cons_of_mem _ ((((hrest a ha).2 hcut).mem _).mpr ⟨s,hs,?_,hpath,hcuts⟩)
          exact List.append_cons p a s
  · rw [List.pairwise_flatMap]
    constructor
    · intro a ha
      refine List.pairwise_cons.mpr ⟨fun y hy => ?_,?_⟩
      · obtain ⟨-,s,hs,hys,-⟩ := hunder a ha y hy
        cases s with
        | nil => exact absurd rfl hs
        | cons b t => exact .inl ⟨b,t,by rw [hys,List.append_assoc]; rfl⟩
      · by_cases hcut : cut a
        · rw [(hrest a ha).1 hcut]
          exact List.Pairwise.nil
        · exact ((hrest a ha).2 hcut).ordered
    · rw [List.pairwise_iff_forall_sublist]
      intro a b hab x hx y hy
      have ha : a ∈ L.below p.getLast? := hab.subset List.mem_cons_self
      have hb : b ∈ L.below p.getLast? := hab.subset (List.mem_cons_of_mem a List.mem_cons_self)
      obtain ⟨s,hxs⟩ := hstart a ha x hx
      obtain ⟨t,hyt⟩ := hstart b hb y hy
      exact .inr ⟨p,a,b,s,t,hxs,hyt,hab⟩

/-! ## Growth -/

theorem wellFormed_empty [LT α] : (⟨∅,fun _ => none,fun _ => []⟩ : Links α).WellFormed :=
  ⟨fun _ _ => ⟨nofun,fun h => h.1.elim⟩,fun _ => List.nodup_nil,fun _ h => h.elim,
    fun _ h => h.elim⟩

theorem attach_below_self [DecidableEq α] (L : Links α) (q : Option α) (c : α) :
    (L.attach q c).below q = L.below q ++ [c] := Function.update_self _ _ _

theorem attach_below_of_ne [DecidableEq α] (L : Links α) {q r : Option α} (h : r ≠ q) (c : α) :
    (L.attach q c).below r = L.below r := Function.update_of_ne h _ _

theorem WellFormed.attach [DecidableEq α] [LT α] (hL : L.WellFormed) {q : Option α} {c : α}
    (hc : c ∉ L.carrier) (hq : ∀ b, q = some b → b ∈ L.carrier ∧ b < c) :
    (L.attach q c).WellFormed := by
  have hparent : ∀ b, b ≠ c → (L.attach q c).parent b = L.parent b :=
    fun b hb => Function.update_of_ne hb _ _
  have hself : (L.attach q c).parent c = q := Function.update_self _ _ _
  have hnew : ∀ r, c ∉ L.below r := fun r h => hc ((hL.mem_below r c).mp h).1
  refine ⟨fun r b => ?_,fun r => ?_,fun b hb r hr => ?_,fun b hb r hr => ?_⟩
  · have hbelow : b ∈ (L.attach q c).below r ↔ b ∈ L.below r ∨ b = c ∧ r = q := by
      by_cases hr : r = q
      · rw [hr,attach_below_self,List.mem_append,List.mem_singleton,and_iff_left rfl]
      · rw [attach_below_of_ne L hr]
        simp [hr]
    have hmem : b ∈ (L.attach q c).carrier ↔ b = c ∨ b ∈ L.carrier := Set.mem_insert_iff
    rw [hbelow,hmem]
    by_cases hbc : b = c
    · subst hbc
      rw [hself]
      simp [hnew r,eq_comm]
    · rw [hparent b hbc,hL.mem_below r b]
      simp [hbc]
  · by_cases hr : r = q
    · rw [hr,attach_below_self,← List.concat_eq_append]
      exact (hL.nodup q).concat (hnew q)
    · rw [attach_below_of_ne L hr]
      exact hL.nodup r
  · by_cases hbc : b = c
    · rw [hbc,hself] at hr
      exact Set.mem_insert_of_mem _ (hq r hr).1
    · rw [hparent b hbc] at hr
      exact Set.mem_insert_of_mem _ (hL.parent_mem b (hb.resolve_left hbc) r hr)
  · by_cases hbc : b = c
    · rw [hbc,hself] at hr
      rw [hbc]
      exact (hq r hr).2
    · rw [hparent b hbc] at hr
      exact hL.parent_lt b (hb.resolve_left hbc) r hr

end Links

end Rullama.Forest
