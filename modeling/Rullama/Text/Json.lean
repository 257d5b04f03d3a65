import Rullama.Text.Units

/-! # JSON

`JSON.parse` on code units, as recursive descent. A number is kept as its literal: what it
rounds to is not modelled.
-/
namespace Rullama.Text.Json

inductive Value where
  | null
  | bool (b : Bool)
  | number (literal : Units)
  | string (s : Units)
  | array (items : List Value)
  | object (fields : List (Units × Value))

/-- A property of an object, set or added. -/
def put (fields : List (Units × Value)) (key : Units) (v : Value) : List (Units × Value) :=
  if fields.any (fun f => f.1 == key) then
    fields.map (fun f => if f.1 == key then (key,v) else f)
  else fields ++ [(key,v)]

/-! ## Tokens -/

def isBlank (c : UInt16) : Bool :=
  c = unit ' ' || c = unit '\t' || c = unit '\n' || c = unit '\r'

def skip (s : Units) : Units := s.dropWhile isBlank

theorem isSpace_of_isBlank {c : UInt16} (h : isBlank c = true) : isSpace c = true := by
  simp only [isBlank,Bool.or_eq_true,decide_eq_true_eq] at h
  rcases h with ((rfl | rfl) | rfl) | rfl <;> decide

theorem exists_skip (s : Units) : ∃ w, Blank w ∧ s = w ++ skip s := by
  refine ⟨s.takeWhile isBlank,fun c hc => ?_,(List.takeWhile_append_dropWhile ..).symm⟩
  exact isSpace_of_isBlank (List.mem_takeWhile_imp hc)

def hexDigit (c : UInt16) : Option UInt16 :=
  if isDigit c then some (c - unit '0')
  else if unit 'A' ≤ c && c ≤ unit 'F' then some (c - unit 'A' + 10)
  else if unit 'a' ≤ c && c ≤ unit 'f' then some (c - unit 'a' + 10)
  else none

def hex4 (a b c d : UInt16) : Option UInt16 := do
  return (← hexDigit a) * 4096 + (← hexDigit b) * 256 + (← hexDigit c) * 16 + (← hexDigit d)

def escape (c : UInt16) : Option UInt16 :=
  if c = unit '"' || c = unit '\\' || c = unit '/' then some c
  else if c = unit 'b' then some 0x08
  else if c = unit 'f' then some 0x0C
  else if c = unit 'n' then some 0x0A
  else if c = unit 'r' then some 0x0D
  else if c = unit 't' then some 0x09
  else none

/-- A string after its opening quote, and what comes after the closing one. -/
def stringRest : Units → Option (Units × Units)
  | [] => none
  | c :: cs =>
    if c = unit '"' then some ([],cs)
    else if c = unit '\\' then
      match cs with
      | [] => none
      | e :: cs =>
        if e = unit 'u' then
          match cs with
          | h₁ :: h₂ :: h₃ :: h₄ :: cs =>
            match hex4 h₁ h₂ h₃ h₄ with
            | some x => (stringRest cs).map (fun p => (x :: p.1,p.2))
            | none => none
          | _ => none
        else
          match escape e with
          | some x => (stringRest cs).map (fun p => (x :: p.1,p.2))
          | none => none
    else if c < 0x20 then none
    else (stringRest cs).map (fun p => (c :: p.1,p.2))

def exponentOk : Units → Bool
  | [] => true
  | e :: s =>
    (e = unit 'e' || e = unit 'E') &&
      let digits := match s with
        | [] => []
        | c :: cs => if c = unit '+' || c = unit '-' then cs else s
      !digits.isEmpty && digits.all isDigit

def fractionOk : Units → Bool
  | [] => true
  | c :: s =>
    if c = unit '.' then
      !(s.takeWhile isDigit).isEmpty && exponentOk (s.dropWhile isDigit)
    else exponentOk (c :: s)

/-- A number of JSON: no leading zero, and digits on both sides of the point. -/
def isNumber (s : Units) : Bool :=
  let s := match s with
    | [] => []
    | c :: cs => if c = unit '-' then cs else s
  let digits := s.takeWhile isDigit
  !digits.isEmpty && (digits.length = 1 || digits.head? != some (unit '0')) &&
    fractionOk (s.dropWhile isDigit)

def inNumber (c : UInt16) : Bool :=
  isDigit c || c = unit '-' || c = unit '+' || c = unit '.' || c = unit 'e' || c = unit 'E'

/-- Nothing that a number is made of can come directly after it, so that the longest run of it
is either the number or an error. -/
def number (s : Units) : Option (Value × Units) :=
  if isNumber (s.takeWhile inNumber) then
    some (.number (s.takeWhile inNumber),s.dropWhile inNumber)
  else none

def word (w : String) (v : Value) (s : Units) : Option (Value × Units) :=
  if units w <+: s then some (v,s.drop (units w).length) else none

def keyword (s : Units) : Option (Value × Units) :=
  (word "null" .null s).or ((word "true" (.bool true) s).or (word "false" (.bool false) s))

/-- The next token is this unit. -/
def expect (c : UInt16) (s : Units) : Option Units :=
  match skip s with
  | [] => none
  | d :: ds => if d = c then some ds else none

/-- A key with its colon. -/
def key (s : Units) : Option (Units × Units) :=
  match expect (unit '"') s with
  | none => none
  | some s =>
    match stringRest s with
    | none => none
    | some (k,s) => (expect (unit ':') s).map (fun s => (k,s))

/-! ## Values -/

mutual

/-- The value at the front of a text, and what comes after it. -/
def value : ℕ → Units → Option (Value × Units)
  | 0,_ => none
  | n + 1,s =>
    match skip s with
    | [] => none
    | c :: cs =>
      if c = unit '"' then (stringRest cs).map (fun p => (.string p.1,p.2))
      else if c = unit '{' then
        match expect (unit '}') cs with
        | some rest => some (.object [],rest)
        | none =>
          (members n cs).map (fun p => (.object (p.1.foldl (fun o f => put o f.1 f.2) []),p.2))
      else if c = unit '[' then
        match expect (unit ']') cs with
        | some rest => some (.array [],rest)
        | none => (elements n cs).map (fun p => (.array p.1,p.2))
      else if inNumber c then number (c :: cs)
      else keyword (c :: cs)

/-- The members of an object up to its closing brace. -/
def members : ℕ → Units → Option (List (Units × Value) × Units)
  | 0,_ => none
  | n + 1,s =>
    match key s with
    | none => none
    | some (k,s) =>
      match value n s with
      | none => none
      | some (v,s) =>
        match expect (unit ',') s with
        | some s => (members n s).map (fun p => ((k,v) :: p.1,p.2))
        | none => (expect (unit '}') s).map (fun s => ([(k,v)],s))

/-- The elements of an array up to its closing bracket. -/
def elements : ℕ → Units → Option (List Value × Units)
  | 0,_ => none
  | n + 1,s =>
    match value n s with
    | none => none
    | some (v,s) =>
      match expect (unit ',') s with
      | some s => (elements n s).map (fun p => (v :: p.1,p.2))
      | none => (expect (unit ']') s).map (fun s => ([v],s))

end

/-- `JSON.parse` -/
def parse (s : Units) : Option Value :=
  match value (2 * s.length + 1) s with
  | none => none
  | some (v,rest) => if skip rest = [] then some v else none

/-! ## What a value takes from the text -/

/-- The rest of a string runs up to a quote that no backslash stands before. -/
inductive Quoted : Units → Units → Prop
  | close (rest : Units) : Quoted (unit '"' :: rest) rest
  | plain {c : UInt16} {s rest : Units} : c ≠ unit '"' → c ≠ unit '\\' → Quoted s rest →
      Quoted (c :: s) rest
  | escape (e : UInt16) {s rest : Units} : Quoted s rest → Quoted (unit '\\' :: e :: s) rest

theorem Quoted.hex {c x : UInt16} (hc : hexDigit c = some x) {s rest : Units}
    (h : Quoted s rest) : Quoted (c :: s) rest := by
  refine .plain ?_ ?_ h
  · rintro rfl
    have hnone : hexDigit (unit '"') = none := by decide
    exact absurd (hc.symm.trans hnone) nofun
  · rintro rfl
    have hnone : hexDigit (unit '\\') = none := by decide
    exact absurd (hc.symm.trans hnone) nofun

theorem Quoted.hex4 {a b c d x : UInt16} (hx : hex4 a b c d = some x) {s rest : Units}
    (h : Quoted s rest) : Quoted (a :: b :: c :: d :: s) rest := by
  simp only [Json.hex4,Option.bind_eq_bind,Option.bind_eq_some_iff] at hx
  obtain ⟨_,ha,_,hb,_,hc,_,hd,_⟩ := hx
  exact .hex ha (.hex hb (.hex hc (.hex hd h)))

theorem quoted_of_stringRest {s x rest : Units} (h : stringRest s = some (x,rest)) :
    Quoted s rest := by
  fun_induction stringRest s generalizing x rest with
  | case2 cs =>
    cases h
    exact .close _
  | case4 h₁ h₂ h₃ h₄ cs y hy _ ih =>
    obtain ⟨p,hp,heq⟩ := Option.map_eq_some_iff.mp h
    cases heq
    exact .escape _ (.hex4 hy (ih hp))
  | case7 e cs _ y _ _ ih =>
    obtain ⟨p,hp,heq⟩ := Option.map_eq_some_iff.mp h
    cases heq
    exact .escape e (ih hp)
  | case10 c cs hquote hback _ ih =>
    obtain ⟨p,hp,heq⟩ := Option.map_eq_some_iff.mp h
    cases heq
    exact .plain hquote hback (ih hp)
  | _ => cases h

def Plain (c : UInt16) : Prop := c ≠ unit '"' ∧ c ≠ unit '{' ∧ c ≠ unit '}'

instance (c : UInt16) : Decidable (Plain c) := inferInstanceAs (Decidable (_ ∧ _ ∧ _))

/-- A relation between a text and a later part of it that strings and pairs of braces, and
everything that is neither, can be skipped by. -/
structure Skipper (R : Units → Units → Prop) : Prop where
  refl : ∀ s, R s s
  trans : ∀ {s t u}, R s t → R t u → R s u
  plain : ∀ {c} (s), Plain c → R (c :: s) s
  string : ∀ {s rest}, Quoted s rest → R (unit '"' :: s) rest
  braces : ∀ {s rest}, R s (unit '}' :: rest) → R (unit '{' :: s) rest

namespace Skipper

variable {R : Units → Units → Prop} {s t rest : Units}

theorem append (h : Skipper R) (ht : ∀ c ∈ t, Plain c) (s : Units) : R (t ++ s) s := by
  induction t with
  | nil => exact h.refl s
  | cons c t ih =>
    rw [List.forall_mem_cons] at ht
    exact h.trans (h.plain (t ++ s) ht.1) (ih ht.2)

theorem skip (h : Skipper R) (s : Units) : R s (Json.skip s) := by
  have hblank : ∀ c ∈ s.takeWhile isBlank, Plain c := by
    intro c hc
    have hc := List.mem_takeWhile_imp hc
    refine ⟨?_,?_,?_⟩
    all_goals
      rintro rfl
      exact absurd hc (by decide)
  have := h.append hblank (s.dropWhile isBlank)
  rwa [List.takeWhile_append_dropWhile] at this

theorem number (h : Skipper R) {v : Value} (hv : Json.number s = some (v,rest)) : R s rest := by
  have hin : ∀ c ∈ s.takeWhile inNumber, Plain c := by
    intro c hc
    have hc := List.mem_takeWhile_imp hc
    refine ⟨?_,?_,?_⟩
    all_goals
      rintro rfl
      exact absurd hc (by decide)
  rw [Json.number] at hv
  split at hv
  · cases hv
    have := h.append hin (s.dropWhile inNumber)
    rwa [List.takeWhile_append_dropWhile] at this
  · cases hv

theorem word (h : Skipper R) {w : String} (hw : ∀ c ∈ units w, Plain c) {v v' : Value}
    (hv : Json.word w v s = some (v',rest)) : R s rest := by
  rw [Json.word] at hv
  split at hv
  · rename_i hpre
    cases hv
    obtain ⟨t,rfl⟩ := hpre
    rw [List.drop_left]
    exact h.append hw t
  · cases hv

theorem keyword (h : Skipper R) {v : Value} (hv : Json.keyword s = some (v,rest)) :
    R s rest := by
  rw [Json.keyword,Option.or_eq_some_iff,Option.or_eq_some_iff] at hv
  rcases hv with hv | ⟨-,hv | ⟨-,hv⟩⟩
  · exact h.word (by decide) hv
  · exact h.word (by decide) hv
  · exact h.word (by decide) hv

theorem expect (h : Skipper R) {c : UInt16} (hc : Json.expect c s = some rest) :
    R s (c :: rest) := by
  have hs := h.skip s
  rw [Json.expect] at hc
  split at hc
  · cases hc
  · rename_i d ds hd
    split at hc
    · rename_i hdc
      cases hc
      rwa [hd,hdc] at hs
    · cases hc

theorem key (h : Skipper R) {k : Units} (hk : Json.key s = some (k,rest)) : R s rest := by
  rw [Json.key] at hk
  split at hk
  · cases hk
  · rename_i afterQuote hquote
    split at hk
    · cases hk
    · rename_i k' afterKey hstring
      obtain ⟨t,hcolon,heq⟩ := Option.map_eq_some_iff.mp hk
      cases heq
      have hkey := h.trans (h.expect hquote) (h.string (quoted_of_stringRest hstring))
      exact h.trans hkey (h.trans (h.expect hcolon) (h.plain _ (by decide)))

section Step

variable {n : ℕ}

theorem value_succ (h : Skipper R)
    (hmembers : ∀ s fs rest, Json.members n s = some (fs,rest) → R s (unit '}' :: rest))
    (helements : ∀ s vs rest, Json.elements n s = some (vs,rest) → R s rest) {v : Value}
    (hv : Json.value (n + 1) s = some (v,rest)) : R s rest := by
  have hs := h.skip s
  rw [Json.value] at hv
  split at hv
  · cases hv
  · rename_i c cs hc
    rw [hc] at hs
    refine h.trans hs ?_
    split at hv
    · rename_i hquote
      obtain ⟨p,hp,heq⟩ := Option.map_eq_some_iff.mp hv
      cases heq
      exact hquote ▸ h.string (quoted_of_stringRest hp)
    · split at hv
      · rename_i hbrace
        rw [hbrace]
        split at hv
        · rename_i after hafter
          cases hv
          exact h.braces (h.expect hafter)
        · obtain ⟨p,hp,heq⟩ := Option.map_eq_some_iff.mp hv
          cases heq
          exact h.braces (hmembers _ _ _ hp)
      · split at hv
        · rename_i hbracket
          have hopen : R (c :: cs) cs := h.plain cs (by rw [hbracket]; decide)
          refine h.trans hopen ?_
          split at hv
          · rename_i after hafter
            cases hv
            exact h.trans (h.expect hafter) (h.plain _ (by decide))
          · obtain ⟨p,hp,heq⟩ := Option.map_eq_some_iff.mp hv
            cases heq
            exact helements _ _ _ hp
        · split at hv
          · exact h.number hv
          · exact h.keyword hv

theorem members_succ (h : Skipper R)
    (hvalue : ∀ s v rest, Json.value n s = some (v,rest) → R s rest)
    (hmembers : ∀ s fs rest, Json.members n s = some (fs,rest) → R s (unit '}' :: rest))
    {fs : List (Units × Value)} (hv : Json.members (n + 1) s = some (fs,rest)) :
    R s (unit '}' :: rest) := by
  rw [Json.members] at hv
  split at hv
  · cases hv
  · rename_i k s₁ hkey
    split at hv
    · cases hv
    · rename_i v s₂ hval
      refine h.trans (h.key hkey) (h.trans (hvalue _ _ _ hval) ?_)
      split at hv
      · rename_i s₃ hcomma
        obtain ⟨p,hp,heq⟩ := Option.map_eq_some_iff.mp hv
        cases heq
        exact h.trans (h.expect hcomma) (h.trans (h.plain _ (by decide)) (hmembers _ _ _ hp))
      · obtain ⟨t,ht,heq⟩ := Option.map_eq_some_iff.mp hv
        cases heq
        exact h.expect ht

theorem elements_succ (h : Skipper R)
    (hvalue : ∀ s v rest, Json.value n s = some (v,rest) → R s rest)
    (helements : ∀ s vs rest, Json.elements n s = some (vs,rest) → R s rest)
    {vs : List Value} (hv : Json.elements (n + 1) s = some (vs,rest)) : R s rest := by
  rw [Json.elements] at hv
  split at hv
  · cases hv
  · rename_i v s₁ hval
    refine h.trans (hvalue _ _ _ hval) ?_
    split at hv
    · rename_i s₂ hcomma
      obtain ⟨p,hp,heq⟩ := Option.map_eq_some_iff.mp hv
      cases heq
      exact h.trans (h.expect hcomma) (h.trans (h.plain _ (by decide)) (helements _ _ _ hp))
    · obtain ⟨t,ht,heq⟩ := Option.map_eq_some_iff.mp hv
      cases heq
      exact h.trans (h.expect ht) (h.plain _ (by decide))

end Step

theorem value_members_elements (h : Skipper R) (n : ℕ) :
    (∀ s v rest, Json.value n s = some (v,rest) → R s rest) ∧
    (∀ s fs rest, Json.members n s = some (fs,rest) → R s (unit '}' :: rest)) ∧
    ∀ s vs rest, Json.elements n s = some (vs,rest) → R s rest := by
  induction n with
  | zero => exact ⟨nofun,nofun,nofun⟩
  | succ n ih =>
    obtain ⟨hvalue,hmembers,helements⟩ := ih
    exact ⟨fun _ _ _ => h.value_succ hmembers helements,
      fun _ _ _ => h.members_succ hvalue hmembers,
      fun _ _ _ => h.elements_succ hvalue helements⟩

/-- Such a relation skips every value. -/
theorem value (h : Skipper R) {n : ℕ} {v : Value} (hv : Json.value n s = some (v,rest)) :
    R s rest :=
  (h.value_members_elements n).1 s v rest hv

theorem members (h : Skipper R) {n : ℕ} {fs : List (Units × Value)}
    (hv : Json.members n s = some (fs,rest)) : R s (unit '}' :: rest) :=
  (h.value_members_elements n).2.1 s fs rest hv

end Skipper

/-! ## Objects -/

theorem word_ne_object {w : String} {v : Value} {s rest : Units} {fields : List (Units × Value)}
    (hv : ∀ fs, v ≠ .object fs) : word w v s ≠ some (.object fields,rest) := by
  rw [word]
  split
  · intro h
    cases h
    exact hv fields rfl
  · exact nofun

theorem keyword_ne_object {s rest : Units} {fields : List (Units × Value)} :
    keyword s ≠ some (.object fields,rest) := by
  rw [keyword]
  intro h
  rw [Option.or_eq_some_iff,Option.or_eq_some_iff] at h
  rcases h with h | ⟨-,h | ⟨-,h⟩⟩
  · exact word_ne_object (fun _ heq => Value.noConfusion heq) h
  · exact word_ne_object (fun _ heq => Value.noConfusion heq) h
  · exact word_ne_object (fun _ heq => Value.noConfusion heq) h

/-- An object begins with a brace, and its members run up to the closing one. -/
theorem members_of_value {R : Units → Units → Prop} (hR : Skipper R) {n : ℕ} {s rest : Units}
    {fields : List (Units × Value)} (h : value n s = some (.object fields,rest)) :
    ∃ cs, skip s = unit '{' :: cs ∧ R cs (unit '}' :: rest) := by
  cases n with
  | zero => cases h
  | succ n =>
    rw [value] at h
    split at h
    · cases h
    · rename_i c cs hc
      split at h
      · obtain ⟨p,-,heq⟩ := Option.map_eq_some_iff.mp h
        cases heq
      · split at h
        · rename_i hbrace
          refine ⟨cs,hbrace ▸ hc,?_⟩
          split at h
          · rename_i after hafter
            cases h
            exact hR.expect hafter
          · obtain ⟨p,hp,heq⟩ := Option.map_eq_some_iff.mp h
            cases heq
            exact hR.members hp
        · split at h
          · split at h
            · cases h
            · obtain ⟨p,-,heq⟩ := Option.map_eq_some_iff.mp h
              cases heq
          · split at h
            · rw [number] at h
              split at h <;> cases h
            · exact absurd h keyword_ne_object

/-- What begins with a brace is an object, or nothing. -/
theorem object_of_parse {s : Units} {v : Value} (h : parse s = some v)
    (hs : s.head? = some (unit '{')) : ∃ fields, v = .object fields := by
  cases s with
  | nil => cases hs
  | cons c cs =>
    cases hs
    have hquote : unit '{' ≠ unit '"' := by decide
    have hskip : skip (unit '{' :: cs) = unit '{' :: cs :=
      List.dropWhile_cons_of_neg (by decide)
    rw [parse,value,hskip] at h
    simp only [if_neg hquote,if_true] at h
    split at h
    · cases h
    · rename_i v' rest hv
      split at h
      · cases h
        split at hv
        · cases hv
          exact ⟨_,rfl⟩
        · obtain ⟨p,-,heq⟩ := Option.map_eq_some_iff.mp hv
          cases heq
          exact ⟨_,rfl⟩
      · cases h

/-! ## Fuel -/

theorem Quoted.length_lt {s rest : Units} (h : Quoted s rest) : rest.length < s.length := by
  induction h with
  | close rest => exact Nat.lt_succ_self _
  | plain _ _ _ ih => exact ih.trans (Nat.lt_succ_self _)
  | escape e _ ih =>
    simp only [List.length_cons]
    omega

theorem skipper_length : Skipper (fun s t => t.length ≤ s.length) where
  refl _ := Nat.le_refl _
  trans h h' := h'.trans h
  plain _ _ := Nat.le_succ _
  string h := h.length_lt.le.trans (Nat.le_succ _)
  braces h := by
    simp only [List.length_cons] at h ⊢
    omega

theorem length_expect {c : UInt16} {s rest : Units} (h : expect c s = some rest) :
    rest.length < s.length :=
  skipper_length.expect h

theorem length_skip {c : UInt16} {s cs : Units} (h : skip s = c :: cs) :
    cs.length < s.length := by
  have hle := skipper_length.skip s
  rw [h] at hle
  exact hle

theorem fuel_succ (n : ℕ) :
    (∀ s, 2 * s.length + 1 ≤ n → value n s = value (n + 1) s) ∧
    (∀ s, 2 * s.length + 2 ≤ n → members n s = members (n + 1) s) ∧
    ∀ s, 2 * s.length + 2 ≤ n → elements n s = elements (n + 1) s := by
  induction n with
  | zero => refine ⟨?_,?_,?_⟩ <;> intros <;> omega
  | succ n ih =>
    obtain ⟨hvalue,hmembers,helements⟩ := ih
    refine ⟨fun s hs => ?_,fun s hs => ?_,fun s hs => ?_⟩
    · rw [value,value]
      cases hskip : skip s with
      | nil => rfl
      | cons c cs =>
        have hlt := length_skip hskip
        simp only [hmembers cs (by omega),helements cs (by omega)]
    · rw [members,members]
      cases hkey : key s with
      | none => rfl
      | some p =>
        obtain ⟨k,s₁⟩ := p
        have h₁ : s₁.length ≤ s.length := skipper_length.key hkey
        simp only [← hvalue s₁ (by omega)]
        cases hval : value n s₁ with
        | none => rfl
        | some q =>
          obtain ⟨v,s₂⟩ := q
          have h₂ : s₂.length ≤ s₁.length := skipper_length.value hval
          simp only
          cases hcomma : expect (unit ',') s₂ with
          | none => rfl
          | some s₃ =>
            have h₃ := length_expect hcomma
            simp only [hmembers s₃ (by omega)]
    · rw [elements,elements,← hvalue s (by omega)]
      cases hval : value n s with
      | none => rfl
      | some q =>
        obtain ⟨v,s₁⟩ := q
        have h₁ : s₁.length ≤ s.length := skipper_length.value hval
        simp only
        cases hcomma : expect (unit ',') s₁ with
        | none => rfl
        | some s₂ =>
          have h₂ := length_expect hcomma
          simp only [helements s₂ (by omega)]

/-- The parser never runs out of fuel: more of it makes no difference. -/
theorem value_fuel {s : Units} {n : ℕ} (h : 2 * s.length + 1 ≤ n) :
    value n s = value (2 * s.length + 1) s := by
  induction n,h using Nat.le_induction with
  | base => rfl
  | succ n hn ih => rw [← (fuel_succ n).1 s hn,ih]

end Rullama.Text.Json
