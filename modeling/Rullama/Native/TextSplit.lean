import Mathlib.Algebra.Group.Int.Defs
import Mathlib.Algebra.GroupWithZero.Nat
import Rullama.Native.ToolCalling
import Rullama.Text.Parts
import Rullama.Text.Trim

/-! # The chunks of a native document

Paragraphs are packed into chunks with a blank line between them. A paragraph that is too long
for a chunk is cut into windows, each of which begins before the end of the one before it.
-/
namespace Rullama.Native.TextSplit
open Text hiding trim
open Rullama.Native.ToolCalling (isWhiteSpace trim)

def blankLine : Units := [unit '\n',unit '\n']

/-- `Replace("\r\n", "\n")` -/
def normalize (text : Units) : Units :=
  [unit '\n'].intercalate (parts [unit '\r',unit '\n'] text)

/-- The chunk that is being packed goes out. -/
def flush (cur : Units) : List Units := if (trim cur).length > 0 then [trim cur] else []

/-- `Substring`, which throws where it would leave the text. -/
def substring (p : Units) (i len : ℤ) : Option Units :=
  if 0 ≤ i ∧ 0 ≤ len ∧ i + len ≤ p.length then some ((p.drop i.toNat).take len.toNat) else none

/-- The loop over a long paragraph. It gives nothing where it throws or does not end. -/
def windows (p : Units) (targetChars stride : ℤ) : ℕ → ℤ → Option (List Units)
  | 0,i => if i < p.length then none else some []
  | n + 1,i =>
    if i < p.length then
      let len := min targetChars (p.length - i)
      match substring p i len with
      | none => none
      | some window =>
        if i + len ≥ p.length then some [trim window]
        else (windows p targetChars stride n (i + stride)).map (trim window :: ·)
    else some []

def append (cur p : Units) : Units := (if cur.length > 0 then cur ++ blankLine else cur) ++ p

/-- `targetChars - overlap` as an `int` -/
def stride (targetChars overlap : ℤ) : ℤ := (targetChars - overlap).bmod (2^32)

/-- The loop over the paragraphs, with the chunk that is being packed. -/
def chunkParas (targetChars overlap : ℤ) : Units → List Units → Option (List Units)
  | cur,[] => some (flush cur)
  | cur,para :: paras =>
    let p := trim para
    if p.length = 0 then chunkParas targetChars overlap cur paras
    else if p.length > targetChars then
      match windows p targetChars (stride targetChars overlap) p.length 0 with
      | none => none
      | some ws => (chunkParas targetChars overlap [] paras).map (flush cur ++ ws ++ ·)
    else if cur.length + p.length + 2 > targetChars then
      (chunkParas targetChars overlap (append [] p) paras).map (flush cur ++ ·)
    else chunkParas targetChars overlap (append cur p) paras

def chunk (text : Units) (targetChars overlap : ℤ) : Option (List Units) :=
  chunkParas targetChars overlap [] (parts blankLine (normalize text))

/-! ## What the chunks are of the text -/

def White (s : Units) : Prop := ∀ c ∈ s, isWhiteSpace c = true

/-- What a text has between two positions. -/
def stretch (text : Units) (span : ℕ × ℕ) : Units := (text.take span.2).drop span.1

structure Paragraph (p : Units) : Prop where
  ne_nil : p ≠ []
  trimmed : trim p = p
  whole : ¬blankLine <:+: p

/-- A chunk of paragraphs that stand behind each other in the stretch. -/
inductive Joins : Units → Units → Prop
  | one {p : Units} : Paragraph p → Joins p p
  | more {c s w p : Units} : Joins c s → White w → blankLine <:+: w → Paragraph p →
      Joins (c ++ blankLine ++ p) (s ++ w ++ p)

/-- A chunk that holds what stands in the stretch. -/
inductive Reads : Units → Units → Prop
  | window {s : Units} : ¬blankLine <:+: s → Reads (trim s) s
  | paragraphs {c s : Units} : Joins c s → Reads c s

/-- Chunks that go through the text behind the position `n`, where the stretch before has begun at
`lo`. White space is left out between them, or anything where they need not cover the text. -/
inductive Placed (text : Units) (covering : Prop) : ℕ → ℕ → List Units → Prop
  | done {lo n : ℕ} : (covering → White (text.drop n)) → Placed text covering lo n []
  | step {lo n i j : ℕ} {c : Units} {cs : List Units} : lo ≤ i → n ≤ j → i ≤ j →
      j ≤ text.length → (covering → White (stretch text (n,i))) → Reads c (stretch text (i,j)) →
      Placed text covering i j cs → Placed text covering lo n (c :: cs)

variable {text cur pre p s w a c : Units} {targetChars overlap : ℤ} {covering : Prop} {lo n : ℕ}

theorem trim_eq (s : Units) : trim s = trimmed isWhiteSpace s := rfl

theorem Joins.ne_nil (h : Joins c s) : c ≠ [] := by
  cases h with
  | one hp => exact hp.ne_nil
  | more _ _ _ hp => exact List.append_ne_nil_of_right_ne_nil _ hp.ne_nil

theorem trim_joined {p q : Units} (hp : p ≠ []) (htrim : trim p = p) (hq : q ≠ [])
    (htrim' : trim q = q) (w : Units) : trim (p ++ w ++ q) = p ++ w ++ q := by
  rw [trim_eq,trimmed_eq_self_iff] at htrim htrim' ⊢
  constructor
  · intro c hc
    rw [List.append_assoc,List.head?_append_of_ne_nil _ hp] at hc
    exact htrim.1 c hc
  · intro c hc
    rw [List.getLast?_append_of_ne_nil _ hq] at hc
    exact htrim'.2 c hc

theorem Joins.trim_eq_self (h : Joins c s) : trim c = c := by
  induction h with
  | one hp => exact hp.trimmed
  | more hjoins _ _ hp ih => exact trim_joined hjoins.ne_nil ih hp.ne_nil hp.trimmed _

/-- What is in the stretch besides white space is in the chunk. -/
theorem Joins.mem (h : Joins c s) {u : UInt16} (hu : u ∈ s) (hwhite : isWhiteSpace u = false) :
    u ∈ c := by
  induction h with
  | one _ => exact hu
  | @more c s w p hjoins hw _ _ ih =>
    simp only [List.mem_append] at hu ⊢
    rcases hu with (hu | hu) | hu
    · exact .inl (.inl (ih hu))
    · rw [hw u hu] at hwhite
      cases hwhite
    · exact .inr hu

theorem Reads.mem (h : Reads c s) {u : UInt16} (hu : u ∈ s) (hwhite : isWhiteSpace u = false) :
    u ∈ c := by
  cases h with
  | window _ =>
    obtain ⟨w,w',hw,hw',hs⟩ := exists_trimmed isWhiteSpace s
    rw [hs,List.mem_append,List.mem_append] at hu
    rcases hu with hu | hu | hu
    · rw [hw u hu] at hwhite
      cases hwhite
    · exact hu
    · rw [hw' u hu] at hwhite
      cases hwhite
  | paragraphs h => exact h.mem hu hwhite

/-! ## Positions -/

theorem take_text {k : ℕ} (h : k ≤ text.length) : text.take k = (text ++ blankLine).take k :=
  (List.take_append_of_le_length h).symm

theorem stretch_eq {r : Units} (htext : text ++ blankLine = a ++ s ++ r)
    (hr : blankLine.length ≤ r.length) :
    stretch text (a.length,a.length + s.length) = s ∧ a.length + s.length ≤ text.length := by
  have hlen := congrArg List.length htext
  simp only [List.length_append] at hlen
  have hle : a.length + s.length ≤ text.length := by omega
  have htake : text.take (a.length + s.length) = a ++ s := by
    rw [take_text hle,htext,← List.length_append,List.take_left]
  refine ⟨?_,hle⟩
  rw [stretch,htake,List.drop_left]

theorem white_append : White (s ++ w) ↔ White s ∧ White w := List.forall_mem_append

theorem white_drop_append (hn : n ≤ pre.length) (hpre : White (pre.drop n)) (hw : White w) :
    White ((pre ++ w).drop n) := by
  rw [List.drop_append_of_le_length hn,white_append]
  exact ⟨hpre,hw⟩

theorem white_blankLine : White blankLine := by
  intro c hc
  rw [blankLine,List.mem_cons,List.mem_singleton,or_self] at hc
  rw [hc]
  decide

/-- Where the loop is with the chunk that it packs, when it has come through `pre`. -/
inductive Packing (covering : Prop) (pre : Units) : Units → ℕ → ℕ → Prop
  | empty {lo n : ℕ} : lo ≤ pre.length → n ≤ pre.length → (covering → White (pre.drop n)) →
      Packing covering pre [] lo n
  | full {lo n : ℕ} {cur a s w : Units} : pre = a ++ s ++ w → Joins cur s → White w →
      blankLine <:+: w → lo ≤ a.length → n ≤ a.length → (covering → White (a.drop n)) →
      Packing covering pre cur lo n

theorem Joins.flush_eq (h : Joins c s) : flush c = [c] := by
  rw [flush,h.trim_eq_self,if_pos (List.length_pos_iff.mpr h.ne_nil)]

/-- A chunk that goes out is placed before those that follow. -/
theorem Packing.flush (h : Packing covering pre cur lo n) {rest : Units}
    (htext : text ++ blankLine = pre ++ rest) {cs : List Units}
    (hcs : ∀ lo n, Packing covering pre [] lo n → Placed text covering lo n cs) :
    Placed text covering lo n (flush cur ++ cs) := by
  cases h with
  | empty hlo hn hwhite => exact hcs lo n (.empty hlo hn hwhite)
  | @full _ _ _ a s w hpre hjoins hw hline hlo hn hwhite =>
    rw [hpre,List.append_assoc _ w] at htext
    have hrest : blankLine.length ≤ (w ++ rest).length := by
      rw [List.length_append]
      exact Nat.le_add_right_of_le hline.length_le
    obtain ⟨hstretch,hle⟩ := stretch_eq htext hrest
    have hgap : stretch text (n,a.length) = a.drop n := by
      have htake : text.take a.length = a := by
        rw [take_text (by omega),htext,List.append_assoc,List.take_left]
      rw [stretch,htake]
    rw [hjoins.flush_eq]
    refine .step hlo (by omega) (Nat.le_add_right _ _) hle ?_ ?_ (hcs _ _ (.empty ?_ ?_ ?_))
    · rw [hgap]
      exact hwhite
    · rw [hstretch]
      exact .paragraphs hjoins
    · rw [hpre,List.length_append,List.length_append]
      omega
    · rw [hpre,List.length_append,List.length_append]
      omega
    · intro _
      rw [hpre,← List.length_append,List.drop_left]
      exact hw

theorem Packing.skip (h : Packing covering pre cur lo n) (hw : White w) :
    Packing covering (pre ++ w) cur lo n := by
  cases h with
  | empty hlo hn hwhite =>
    refine .empty ?_ ?_ fun hc => white_drop_append hn (hwhite hc) hw
    · rw [List.length_append]
      omega
    · rw [List.length_append]
      omega
  | full hpre hjoins hw' hline hlo hn hwhite =>
    refine .full ?_ hjoins (white_append.mpr ⟨hw',hw⟩) (hline.trans (List.infix_append' [] _ _))
      hlo hn hwhite
    rw [hpre,List.append_assoc]

/-- A paragraph is put behind those of the chunk. -/
theorem Packing.append (h : Packing covering pre cur lo n) {p w' : Units} (hp : Paragraph p)
    (hw : White w) (hw' : White w') (hline : blankLine <:+: w') :
    Packing covering (pre ++ w ++ p ++ w') (append cur p) lo n := by
  cases h with
  | empty hlo hn hwhite =>
    refine .full rfl (.one hp) hw' hline ?_ ?_ fun hc => white_drop_append hn (hwhite hc) hw
    · rw [List.length_append]
      omega
    · rw [List.length_append]
      omega
  | @full _ _ _ a s v hpre hjoins hv hline' hlo hn hwhite =>
    rw [TextSplit.append,if_pos (List.length_pos_iff.mpr hjoins.ne_nil)]
    refine .full (s := s ++ (v ++ w) ++ p) ?_ (.more hjoins (white_append.mpr ⟨hv,hw⟩)
      (hline'.trans (List.infix_append' [] _ _)) hp) hw' hline hlo hn hwhite
    rw [hpre]
    simp only [List.append_assoc]

/-! ## The windows of a long paragraph -/

theorem substring_eq (p : Units) {T k : ℕ} (hk : k < p.length) :
    substring p k (min (T : ℤ) (p.length - k)) = some ((p.drop k).take T) := by
  rw [substring,if_pos (by omega),Int.toNat_natCast]
  have hlen : (min (T : ℤ) (p.length - k)).toNat = min T (p.drop k).length := by
    rw [List.length_drop]
    omega
  rw [hlen,← List.take_eq_take_min]

theorem windows_of_le {T S : ℕ} (n : ℕ) {k : ℕ} (hk : p.length ≤ k) :
    windows p T S n k = some [] := by
  cases n with
  | zero => rw [windows,if_neg (by omega)]
  | succ n => rw [windows,if_neg (by omega)]

theorem windows_of_lt {T S : ℕ} (n : ℕ) {k : ℕ} (hk : k < p.length) :
    windows p T S (n + 1) k =
      if p.length ≤ k + T then some [trim ((p.drop k).take T)]
      else (windows p T S n (k + S : ℕ)).map (trim ((p.drop k).take T) :: ·) := by
  rw [windows,if_pos (by omega)]
  simp only [substring_eq p hk,Int.natCast_add]
  refine if_congr ?_ rfl rfl
  omega

/-- The windows from `k` on are placed before what follows the paragraph. -/
theorem windows_placed {b r : Units} {T S : ℕ} (htext : text ++ blankLine = b ++ p ++ r)
    (hr : blankLine.length ≤ r.length) (hp : ¬blankLine <:+: p) (hS : 1 ≤ S)
    (hcovering : covering → S ≤ T) (fuel k : ℕ) (hfuel : p.length ≤ k + fuel)
    (hk : k < p.length) :
    ∃ ws, windows p T S fuel k = some ws ∧ (∀ c ∈ ws, c.length ≤ T) ∧
      ∀ lo n cs, lo ≤ b.length + k → n ≤ b.length + min (k + T) p.length →
        (covering → White (stretch text (n,b.length + k))) →
        (∀ lo n, lo ≤ b.length + p.length → n ≤ b.length + p.length →
          (covering → n = b.length + p.length) → Placed text covering lo n cs) →
        Placed text covering lo n (ws ++ cs) := by
  induction fuel generalizing k with
  | zero => omega
  | succ fuel ih =>
    have hlen : ((p.drop k).take T).length = min T (p.length - k) := by
      rw [List.length_take,List.length_drop]
    have hshort : (trim ((p.drop k).take T)).length ≤ T :=
      (length_trimmed_le _).trans (hlen.trans_le (Nat.min_le_left _ _))
    have hb : (b ++ p.take k).length = b.length + k := by
      rw [List.length_append,List.length_take,Nat.min_eq_left hk.le]
    have hwindow : text ++ blankLine =
        b ++ p.take k ++ (p.drop k).take T ++ ((p.drop k).drop T ++ r) := by
      rw [List.append_assoc _ _ (_ ++ r),← List.append_assoc (List.take T _),
        List.take_append_drop,List.append_assoc b,← List.append_assoc _ _ r,List.take_append_drop,
        ← List.append_assoc,htext]
    obtain ⟨hstretch,hle⟩ := stretch_eq hwindow
      (by rw [List.length_append]; exact Nat.le_add_left_of_le hr)
    rw [hb,hlen] at hstretch hle
    have hone : ¬blankLine <:+: (p.drop k).take T := fun h =>
      hp (h.trans ((List.take_prefix _ _).isInfix.trans (List.drop_suffix _ _).isInfix))
    have hplace {lo n : ℕ} {cs : List Units} (hlo : lo ≤ b.length + k)
        (hn : n ≤ b.length + min (k + T) p.length)
        (hgap : covering → White (stretch text (n,b.length + k)))
        (hcs : Placed text covering (b.length + k) (b.length + k + min T (p.length - k)) cs) :
        Placed text covering lo n (trim ((p.drop k).take T) :: cs) := by
      refine .step hlo (by omega) (Nat.le_add_right _ _) hle hgap ?_ hcs
      rw [hstretch]
      exact .window hone
    rw [windows_of_lt fuel hk]
    split
    · refine ⟨_,rfl,List.forall_mem_singleton.mpr hshort,fun lo n cs hlo hn hgap hcs => ?_⟩
      exact hplace hlo hn hgap (hcs _ _ (by omega) (by omega) fun _ => by omega)
    · rename_i hmore
      rcases Nat.lt_or_ge (k + S) p.length with hnext | hnext
      · have hgap' (hc : covering) :
            White (stretch text (b.length + k + min T (p.length - k),b.length + (k + S))) := by
          have hST := hcovering hc
          rw [stretch,List.drop_eq_nil_of_le]
          · exact List.forall_mem_nil _
          · rw [List.length_take]
            omega
        obtain ⟨ws,hws,hall,hrest⟩ := ih (k + S) (by omega) hnext
        refine ⟨_,by rw [hws]; rfl,List.forall_mem_cons.mpr ⟨hshort,hall⟩,?_⟩
        intro lo n cs hlo hn hgap hcs
        exact hplace hlo hn hgap (hrest _ _ cs (by omega) (by omega) hgap' hcs)
      · refine ⟨_,by rw [windows_of_le fuel hnext]; rfl,List.forall_mem_singleton.mpr hshort,?_⟩
        intro lo n cs hlo hn hgap hcs
        refine hplace hlo hn hgap (hcs _ _ (by omega) (by omega) fun hc => ?_)
        have hST := hcovering hc
        omega

/-! ## The loop over the paragraphs -/

/-- What goes out is not longer than what was packed. -/
theorem length_le_of_mem_flush {T : ℕ} (h : cur.length ≤ T) : ∀ c ∈ flush cur, c.length ≤ T := by
  intro c hc
  rw [flush] at hc
  split at hc
  · rw [List.mem_singleton.mp hc]
    exact (length_trimmed_le cur).trans h
  · cases hc

theorem Packing.done (h : Packing covering pre cur lo n) (htext : text ++ blankLine = pre) :
    Placed text covering lo n (TextSplit.flush cur) := by
  rw [← List.append_nil (TextSplit.flush cur)]
  have hrest : text ++ blankLine = pre ++ [] := by rw [htext,List.append_nil]
  refine h.flush hrest fun lo n h => .done fun hc => ?_
  have hwhite : White (pre.drop n) := by
    cases h with
    | empty _ _ hwhite => exact hwhite hc
    | full _ hjoins _ _ _ _ _ => exact absurd rfl hjoins.ne_nil
  intro u hu
  refine hwhite u ?_
  rw [← htext,List.drop_append]
  exact List.mem_append_left _ hu

theorem Packing.gap (h : Packing covering pre [] lo n) {r : Units}
    (htext : text ++ blankLine = pre ++ w ++ r) (hle : (pre ++ w).length ≤ text.length)
    (hw : White w) : lo ≤ pre.length ∧ n ≤ pre.length ∧
      (covering → White (stretch text (n,(pre ++ w).length))) := by
  cases h with
  | empty hlo hn hwhite =>
    refine ⟨hlo,hn,fun hc => ?_⟩
    rw [stretch,take_text hle,htext,List.take_left]
    exact white_drop_append hn (hwhite hc) hw
  | full _ hjoins _ _ _ _ _ => exact absurd rfl hjoins.ne_nil

theorem length_append_nil (p : Units) : (append [] p).length = p.length := rfl

theorem length_append_le {T : ℕ} {p : Units} (hroom : cur.length + p.length + 2 ≤ T) :
    (append cur p).length ≤ T := by
  rw [append]
  split
  · rw [List.length_append,List.length_append,blankLine,List.length_cons,List.length_singleton]
    omega
  · rw [List.length_append]
    omega

theorem paragraph_trim {para : Units} (hne : trim para ≠ []) (h : ¬blankLine <:+: para) :
    Paragraph (trim para) := by
  obtain ⟨w,w',-,-,hpara⟩ := exists_trimmed isWhiteSpace para
  refine ⟨hne,trimmed_trimmed para,fun hline => h (hline.trans ⟨w,w',?_⟩)⟩
  rw [List.append_assoc]
  exact hpara.symm

/-- What the loop has come through with a paragraph `w ++ p ++ w'`. -/
theorem append_paragraph (pre w p w' : Units) :
    pre ++ (w ++ (p ++ w') ++ blankLine) = pre ++ w ++ p ++ (w' ++ blankLine) := by
  simp only [List.append_assoc]

/-- The windows of a paragraph that is too long go out before what comes after it. -/
theorem windows_packed {T S : ℕ} {p w w' rest : Units} (hp : Paragraph p) (hw : White w)
    (hw' : White w') (hS : 1 ≤ S) (hcovering : covering → S ≤ T)
    (htext : text ++ blankLine = pre ++ w ++ p ++ (w' ++ blankLine ++ rest)) :
    ∃ ws, windows p T S p.length 0 = some ws ∧ (∀ c ∈ ws, c.length ≤ T) ∧
      ∀ lo n cs, Packing covering pre [] lo n →
        (∀ lo n, Packing covering (pre ++ w ++ p ++ (w' ++ blankLine)) [] lo n →
          Placed text covering lo n cs) →
        Placed text covering lo n (ws ++ cs) := by
  have hlast : blankLine.length ≤ (w' ++ blankLine ++ rest).length := by
    simp only [List.length_append]
    omega
  have hle := (stretch_eq htext hlast).2
  have hbegin : text ++ blankLine = pre ++ w ++ (p ++ (w' ++ blankLine ++ rest)) := by
    rw [htext,List.append_assoc (pre ++ w)]
  obtain ⟨ws,hws,hshort,hwindows⟩ := windows_placed htext hlast hp.whole hS hcovering p.length 0
    (by omega) (List.length_pos_iff.mpr hp.ne_nil)
  refine ⟨ws,hws,hshort,fun lo n cs h hcs => ?_⟩
  obtain ⟨hlo,hn,hgap⟩ := h.gap hbegin (by omega) hw
  have hprew : (pre ++ w).length = pre.length + w.length := List.length_append
  refine hwindows lo n cs (by omega) (by omega) hgap fun lo n hlo hn hend => ?_
  have hplen : (pre ++ w ++ p).length = (pre ++ w).length + p.length := List.length_append
  have hlong : (pre ++ w ++ p).length ≤ (pre ++ w ++ p ++ (w' ++ blankLine)).length :=
    (List.prefix_append _ _).length_le
  refine hcs lo n (.empty (by omega) (by omega) fun hc => ?_)
  rw [hend hc,← hplen,List.drop_left]
  exact white_append.mpr ⟨hw',white_blankLine⟩

theorem chunkParas_placed {T S : ℕ} (hS : 1 ≤ S) (hcovering : covering → S ≤ T)
    (hstride : stride T overlap = S) {paras : List Units}
    (hparas : ∀ para ∈ paras, ¬blankLine <:+: para)
    (htext : text ++ blankLine = pre ++ paras.flatMap (· ++ blankLine)) (hcur : cur.length ≤ T) :
    ∃ chunks, chunkParas T overlap cur paras = some chunks ∧ (∀ c ∈ chunks, c.length ≤ T) ∧
      ∀ lo n, Packing covering pre cur lo n → Placed text covering lo n chunks := by
  induction paras generalizing pre cur with
  | nil =>
    rw [List.flatMap_nil,List.append_nil] at htext
    exact ⟨_,rfl,length_le_of_mem_flush hcur,fun lo n h => h.done htext⟩
  | cons para paras ih =>
    obtain ⟨w,w',hw,hw',hpara⟩ := exists_trimmed isWhiteSpace para
    rw [← trim_eq] at hpara
    have hrest := fun para hpara => hparas para (List.mem_cons_of_mem _ hpara)
    have hthrough : pre ++ (para ++ blankLine) = pre ++ w ++ trim para ++ (w' ++ blankLine) := by
      conv_lhs => rw [hpara]
      exact append_paragraph pre w (trim para) w'
    have hnext := htext
    rw [List.flatMap_cons,← List.append_assoc,hthrough] at hnext
    rw [chunkParas]
    split
    · rename_i hnone
      obtain ⟨chunks,hchunks,hall,hplaced⟩ := ih hrest hnext hcur
      refine ⟨chunks,hchunks,hall,fun lo n h => hplaced lo n ?_⟩
      rw [← hthrough]
      refine h.skip ?_
      rw [hpara,List.eq_nil_of_length_eq_zero hnone]
      exact white_append.mpr ⟨white_append.mpr ⟨hw,hw'⟩,white_blankLine⟩
    · rename_i hsome
      have hp := paragraph_trim (fun h => hsome (congrArg List.length h))
        (hparas para List.mem_cons_self)
      split
      · have hsplit : text ++ blankLine =
            pre ++ w ++ trim para ++ (w' ++ blankLine ++ paras.flatMap (· ++ blankLine)) := by
          rw [hnext,List.append_assoc]
        obtain ⟨ws,hws,hshort,hwindows⟩ := windows_packed hp hw hw' hS hcovering hsplit
        have hempty : ([] : Units).length ≤ T := Nat.zero_le T
        obtain ⟨chunks,hchunks,hall,hplaced⟩ := ih hrest hnext hempty
        have hstart : windows (trim para) T S (trim para).length 0 = some ws := hws
        rw [hstride,hstart,hchunks]
        refine ⟨_,rfl,?_,fun lo n h => ?_⟩
        · rw [List.forall_mem_append,List.forall_mem_append]
          exact ⟨⟨length_le_of_mem_flush hcur,hshort⟩,hall⟩
        · change Placed text covering lo n (flush cur ++ ws ++ chunks)
          rw [List.append_assoc]
          exact h.flush htext fun lo n h => hwindows lo n chunks h hplaced
      · have hafter {cur : Units} {lo n : ℕ} (h : Packing covering pre cur lo n) :
            Packing covering (pre ++ w ++ trim para ++ (w' ++ blankLine))
              (append cur (trim para)) lo n :=
          h.append hp hw (white_append.mpr ⟨hw',white_blankLine⟩)
            (List.suffix_append _ _).isInfix
        split
        · have hlen : (append [] (trim para)).length ≤ T := by
            rw [length_append_nil]
            omega
          obtain ⟨chunks,hchunks,hall,hplaced⟩ := ih hrest hnext hlen
          rw [hchunks]
          refine ⟨_,rfl,?_,fun lo n h => h.flush htext fun lo n h => hplaced lo n (hafter h)⟩
          exact List.forall_mem_append.mpr ⟨length_le_of_mem_flush hcur,hall⟩
        · have hlen : (append cur (trim para)).length ≤ T := length_append_le (by omega)
          obtain ⟨chunks,hchunks,hall,hplaced⟩ := ih hrest hnext hlen
          exact ⟨chunks,hchunks,hall,fun lo n h => hplaced lo n (hafter h)⟩

/-! ## All of the text -/

theorem Placed.spans {chunks : List Units} (h : Placed text covering lo n chunks) :
    ∃ spans, List.Forall₂ (fun c span => Reads c (stretch text span)) chunks spans ∧
      (∀ span ∈ spans, span.1 ≤ span.2 ∧ span.2 ≤ text.length) ∧
      (∀ span ∈ spans, lo ≤ span.1 ∧ n ≤ span.2) ∧
      spans.Pairwise (fun a b => a.1 ≤ b.1 ∧ a.2 ≤ b.2) ∧
      (covering → ∀ k u, n ≤ k → text[k]? = some u → isWhiteSpace u = false →
        ∃ p ∈ chunks.zip spans, p.2.1 ≤ k ∧ k < p.2.2 ∧ u ∈ p.1) := by
  -- A character of the text is in every stretch around its position.
  have hmem {i j k : ℕ} {u : UInt16} (hi : i ≤ k) (hj : k < j) (hu : text[k]? = some u) :
      u ∈ stretch text (i,j) := by
    rw [stretch,List.mem_iff_getElem?]
    refine ⟨k - i,?_⟩
    rw [List.getElem?_drop,List.getElem?_take_of_lt (by omega),Nat.add_sub_cancel' hi]
    exact hu
  induction h with
  | @done lo n hwhite =>
    refine ⟨[],.nil,List.forall_mem_nil _,List.forall_mem_nil _,.nil,fun hc k u hk hu hblack => ?_⟩
    have hin : u ∈ text.drop n := by
      rw [List.mem_iff_getElem?]
      exact ⟨k - n,by rw [List.getElem?_drop,Nat.add_sub_cancel' hk]; exact hu⟩
    rw [hwhite hc u hin] at hblack
    cases hblack
  | @step lo n i j c cs hlo hn hij hj hgap hreads _ ih =>
    obtain ⟨spans,hall,hinside,hafter,hsorted,hcover⟩ := ih
    refine ⟨(i,j) :: spans,.cons hreads hall,List.forall_mem_cons.mpr ⟨⟨hij,hj⟩,hinside⟩,?_,
      .cons hafter hsorted,?_⟩
    · refine List.forall_mem_cons.mpr ⟨⟨hlo,hn⟩,fun span hspan => ?_⟩
      have := hafter span hspan
      exact ⟨hlo.trans this.1,hn.trans this.2⟩
    · intro hc k u hk hu hblack
      rcases Nat.lt_or_ge k j with hkj | hkj
      · rcases Nat.lt_or_ge k i with hki | hki
        · rw [hgap hc u (hmem hk hki hu)] at hblack
          cases hblack
        · exact ⟨(c,(i,j)),List.mem_cons_self,hki,hkj,hreads.mem (hmem hki hkj hu) hblack⟩
      · obtain ⟨p,hp,hspan⟩ := hcover hc k u hkj hu hblack
        exact ⟨p,List.mem_cons_of_mem _ hp,hspan⟩

theorem filter_intercalate {m : Units} {f : UInt16 → Bool} (hm : m.filter f = [])
    (ps : List Units) : (m.intercalate ps).filter f = ps.flatMap (List.filter f) := by
  induction ps with
  | nil => rfl
  | cons p ps ih =>
    cases ps with
    | nil => rw [List.intercalate_singleton,List.flatMap_singleton]
    | cons q ps =>
      rw [List.intercalate_cons_cons,List.filter_append,List.filter_append,hm,List.append_nil,ih]
      rfl

/-- The line ends are white space in both forms. -/
theorem filter_normalize (text : Units) :
    (normalize text).filter (fun c => !isWhiteSpace c) = text.filter (fun c => !isWhiteSpace c) := by
  have hparts := congrArg (List.filter (fun c => !isWhiteSpace c))
    (flatMap_parts (m := [unit '\r',unit '\n']) (List.cons_ne_nil _ _) text)
  have hend : [unit '\r',unit '\n'].filter (fun c => !isWhiteSpace c) = [] := by decide
  rw [List.filter_append,hend,List.append_nil,List.filter_flatMap] at hparts
  rw [normalize,filter_intercalate (by decide),← hparts]
  refine List.flatMap_congr fun p _ => ?_
  rw [List.filter_append,hend,List.append_nil]

theorem stride_eq (h : overlap < targetChars) (hint : targetChars - overlap < 2^31) :
    stride targetChars overlap = targetChars - overlap :=
  Int.bmod_eq_of_le_mul_two (by omega) (by omega)

/-- Every chunk is short enough and holds what a stretch of the text has, in the order of the
text; with an overlap that is not negative they miss nothing but white space. -/
theorem chunk_spec (text : Units) (targetChars overlap : ℤ) (htarget : 1 ≤ targetChars)
    (hoverlap : overlap < targetChars) (hint : targetChars - overlap < 2^31) :
    ∃ chunks spans, chunk text targetChars overlap = some chunks ∧
      (∀ c ∈ chunks, (c.length : ℤ) ≤ targetChars) ∧
      List.Forall₂ (fun c span => Reads c (stretch (normalize text) span)) chunks spans ∧
      (∀ span ∈ spans, span.1 ≤ span.2 ∧ span.2 ≤ (normalize text).length) ∧
      spans.Pairwise (fun a b => a.1 ≤ b.1 ∧ a.2 ≤ b.2) ∧
      (0 ≤ overlap → ∀ k u, (normalize text)[k]? = some u → isWhiteSpace u = false →
        ∃ p ∈ chunks.zip spans, p.2.1 ≤ k ∧ k < p.2.2 ∧ u ∈ p.1) ∧
      (normalize text).filter (fun c => !isWhiteSpace c) =
        text.filter (fun c => !isWhiteSpace c) := by
  have hm : blankLine ≠ [] := List.cons_ne_nil _ _
  have hstride := stride_eq hoverlap hint
  obtain ⟨T,rfl⟩ := Int.eq_ofNat_of_zero_le (show 0 ≤ targetChars by omega)
  obtain ⟨S,hS⟩ := Int.eq_ofNat_of_zero_le (show 0 ≤ T - overlap by omega)
  rw [hS] at hstride
  obtain ⟨chunks,hchunks,hshort,hplaced⟩ : ∃ chunks, chunk text T overlap = some chunks ∧
      (∀ c ∈ chunks, c.length ≤ T) ∧ ∀ lo n, Packing (0 ≤ overlap) [] [] lo n →
        Placed (normalize text) (0 ≤ overlap) lo n chunks :=
    chunkParas_placed (by omega) (by omega) hstride (fun p hp => not_isInfix_of_mem_parts hm hp)
      (flatMap_parts hm _).symm (Nat.zero_le T)
  obtain ⟨spans,hall,hinside,-,hsorted,hcover⟩ := (hplaced 0 0 (.empty (Nat.le_refl 0)
    (Nat.le_refl 0) fun _ => List.forall_mem_nil _)).spans
  refine ⟨chunks,spans,hchunks,fun c hc => by exact_mod_cast hshort c hc,hall,hinside,hsorted,?_,
    filter_normalize text⟩
  exact fun h k u hu hblack => hcover h k u (Nat.zero_le k) hu hblack

/-- Two paragraphs and a long one. -/
theorem chunk_spec_of_paragraphs : ∃ chunks spans,
    chunk (units "ab \n\ncd\n\nefghijk") 6 2 = some chunks ∧
      (∀ c ∈ chunks, (c.length : ℤ) ≤ 6) ∧
      List.Forall₂ (fun c span =>
        Reads c (stretch (normalize (units "ab \n\ncd\n\nefghijk")) span)) chunks spans := by
  obtain ⟨chunks,spans,hchunks,hshort,hall,-⟩ :=
    chunk_spec (units "ab \n\ncd\n\nefghijk") 6 2 (by decide) (by decide) (by decide)
  exact ⟨chunks,spans,hchunks,hshort,hall⟩

/-- A chunk of two paragraphs is no part of the text where blanks stand between them; a negative
overlap leaves characters out, or lets the difference overflow. -/
theorem chunk_departs : chunk (units "a \n\nb") 800 120 = some [units "a\n\nb"] ∧
    ¬units "a\n\nb" <:+: units "a \n\nb" ∧
    chunk (units "abc") 1 (-1) = some [units "a",units "c"] ∧
    chunk (units "ab") 1 (-2^31) = none := by
  decide +kernel

end Rullama.Native.TextSplit
