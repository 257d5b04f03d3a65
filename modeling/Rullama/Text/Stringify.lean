import Mathlib.Data.Nat.Digits.Lemmas
import Rullama.Text.CodePoints
import Rullama.Text.Json

/-! # Writing JSON

`JSON.stringify` on values that JSON has, without indentation. What it writes is read back as the
same value.
-/
namespace Rullama.Text.Json

/-- A digit of `\u`, in lower case. -/
def hexUnit (n : UInt16) : UInt16 := if n < 10 then unit '0' + n else unit 'a' + (n - 10)

def unicodeEscape (c : UInt16) : Units :=
  [unit '\\',unit 'u',hexUnit (c / 4096),hexUnit (c / 256 % 16),hexUnit (c / 16 % 16),
    hexUnit (c % 16)]

/-- A character in a string: half a surrogate pair is escaped. -/
def quoteChar : Units → Units
  | [c] =>
    if c = unit '"' || c = unit '\\' then [unit '\\',c]
    else if c = 0x08 then units "\\b"
    else if c = 0x0C then units "\\f"
    else if c = 0x0A then units "\\n"
    else if c = 0x0D then units "\\r"
    else if c = 0x09 then units "\\t"
    else if c < 0x20 || leads c || trails c then unicodeEscape c
    else [c]
  | s => s

def quote (s : Units) : Units := unit '"' :: ((chars s).flatMap quoteChar ++ [unit '"'])

mutual

def stringify : Value → Units
  | .null => units "null"
  | .bool true => units "true"
  | .bool false => units "false"
  | .number literal => literal
  | .string s => quote s
  | .array [] => units "[]"
  | .array (v :: vs) => unit '[' :: (stringify v ++ stringifyItems vs)
  | .object [] => units "\x7b\x7d"
  | .object ((k,v) :: fields) =>
    unit '{' :: (quote k ++ unit ':' :: (stringify v ++ stringifyFields fields))

/-- The elements after the first one, with the closing bracket. -/
def stringifyItems : List Value → Units
  | [] => [unit ']']
  | v :: vs => unit ',' :: (stringify v ++ stringifyItems vs)

/-- The members after the first one, with the closing brace. -/
def stringifyFields : List (Units × Value) → Units
  | [] => [unit '}']
  | (k,v) :: fields =>
    unit ',' :: (quote k ++ unit ':' :: (stringify v ++ stringifyFields fields))

end

/-! ## Strings -/

theorem hexDigit_hexUnit {n : UInt16} (h : n < 16) : hexDigit (hexUnit n) = some n := by
  have hall : ∀ k < 16, hexDigit (hexUnit (UInt16.ofNat k)) = some (UInt16.ofNat k) := by decide
  have hn := hall n.toNat h
  rwa [UInt16.ofNat_toNat] at hn

theorem hex4_hexUnit (c : UInt16) : hex4 (hexUnit (c / 4096)) (hexUnit (c / 256 % 16))
    (hexUnit (c / 16 % 16)) (hexUnit (c % 16)) = some c := by
  have hlt := c.toNat_lt
  have hfirst : c / 4096 < 16 := by
    rw [UInt16.lt_iff_toNat_lt,UInt16.toNat_div]
    change c.toNat / 4096 < 16
    omega
  have hrest (d : UInt16) : d % 16 < 16 := by
    rw [UInt16.lt_iff_toNat_lt,UInt16.toNat_mod]
    exact Nat.mod_lt _ (by decide)
  have hsum : c / 4096 * 4096 + c / 256 % 16 * 256 + c / 16 % 16 * 16 + c % 16 = c := by
    rw [← UInt16.toNat_inj]
    simp only [UInt16.toNat_add,UInt16.toNat_mul,UInt16.toNat_div,UInt16.toNat_mod,
      UInt16.reduceToNat]
    omega
  rw [hex4,hexDigit_hexUnit hfirst,hexDigit_hexUnit (hrest _),hexDigit_hexUnit (hrest _),
    hexDigit_hexUnit (hrest _)]
  exact congrArg some hsum

theorem stringRest_unicodeEscape (c : UInt16) (rest : Units) :
    stringRest (unicodeEscape c ++ rest) = (stringRest rest).map (fun p => (c :: p.1,p.2)) := by
  have hquote : unit '\\' ≠ unit '"' := by decide
  rw [unicodeEscape,List.cons_append,stringRest.eq_def]
  simp only [List.cons_append,List.nil_append,if_neg hquote,if_true,hex4_hexUnit]

theorem stringRest_escape {c e : UInt16} (hu : e ≠ unit 'u') (he : escape e = some c)
    (rest : Units) : stringRest (unit '\\' :: e :: rest) =
      (stringRest rest).map (fun p => (c :: p.1,p.2)) := by
  have hquote : unit '\\' ≠ unit '"' := by decide
  rw [stringRest.eq_def]
  simp only [if_neg hquote,if_true,if_neg hu,he]

theorem stringRest_plain {c : UInt16} (hquote : c ≠ unit '"') (hback : c ≠ unit '\\')
    (hc : ¬c < 0x20) (rest : Units) :
    stringRest (c :: rest) = (stringRest rest).map (fun p => (c :: p.1,p.2)) := by
  rw [stringRest.eq_def]
  simp only [if_neg hquote,if_neg hback,if_neg hc]

theorem stringRest_quoteChar (c : UInt16) (rest : Units) :
    stringRest (quoteChar [c] ++ rest) = (stringRest rest).map (fun p => (c :: p.1,p.2)) := by
  rw [quoteChar]
  split
  · rename_i h
    rw [Bool.or_eq_true,decide_eq_true_iff,decide_eq_true_iff] at h
    rcases h with rfl | rfl
    · exact stringRest_escape (by decide) (by decide) rest
    · exact stringRest_escape (by decide) (by decide) rest
  · rename_i h
    rw [Bool.or_eq_true,decide_eq_true_iff,decide_eq_true_iff,not_or] at h
    split
    · rename_i hc
      subst hc
      exact stringRest_escape (by decide) (by decide) rest
    split
    · rename_i hc
      subst hc
      exact stringRest_escape (by decide) (by decide) rest
    split
    · rename_i hc
      subst hc
      exact stringRest_escape (by decide) (by decide) rest
    split
    · rename_i hc
      subst hc
      exact stringRest_escape (by decide) (by decide) rest
    split
    · rename_i hc
      subst hc
      exact stringRest_escape (by decide) (by decide) rest
    split
    · exact stringRest_unicodeEscape c rest
    · rename_i hplain
      rw [Bool.or_eq_true,Bool.or_eq_true,decide_eq_true_iff,not_or,not_or] at hplain
      exact stringRest_plain h.1 h.2 hplain.1.1 rest

theorem plain_of_surrogate {c : UInt16} (h : leads c = true ∨ trails c = true) :
    c ≠ unit '"' ∧ c ≠ unit '\\' ∧ ¬c < 0x20 := by
  have hle : (0xD800 : UInt16) ≤ c := by
    rcases h with h | h
    · rw [leads,Bool.and_eq_true,decide_eq_true_iff] at h
      exact h.1
    · rw [trails,Bool.and_eq_true,decide_eq_true_iff] at h
      exact UInt16.le_trans (by decide) h.1
  refine ⟨?_,?_,UInt16.not_lt.mpr (UInt16.le_trans (by decide) hle)⟩
  · rintro rfl
    exact absurd hle (by decide)
  · rintro rfl
    exact absurd hle (by decide)

/-- A string that is written is read up to its closing quote. -/
theorem stringRest_quoted (s rest : Units) :
    stringRest ((chars s).flatMap quoteChar ++ unit '"' :: rest) = some (s,rest) := by
  induction s using chars.induct with
  | case1 =>
    rw [chars,List.flatMap_nil,List.nil_append,stringRest.eq_def]
    exact if_pos rfl
  | case2 c =>
    rw [chars,List.flatMap_singleton,stringRest_quoteChar,stringRest.eq_def]
    rfl
  | case3 c d s hpair ih =>
    rw [chars,if_pos hpair,List.flatMap_cons,List.append_assoc]
    rw [Bool.and_eq_true] at hpair
    obtain ⟨hcq,hcb,hcc⟩ := plain_of_surrogate (.inl hpair.1)
    obtain ⟨hdq,hdb,hdc⟩ := plain_of_surrogate (.inr hpair.2)
    rw [quoteChar,List.cons_append,List.cons_append,List.nil_append,stringRest_plain hcq hcb hcc,
      stringRest_plain hdq hdb hdc,ih]
    · rfl
    · exact fun c h => List.cons_ne_nil _ _ (List.cons.inj h).2
  | case4 c d s hpair ih =>
    rw [chars,if_neg hpair,List.flatMap_cons,List.append_assoc,stringRest_quoteChar,ih]
    rfl

/-! ## Tokens -/

theorem skip_cons {c : UInt16} (hc : isBlank c = false) (s : Units) : skip (c :: s) = c :: s := by
  rw [skip,List.dropWhile_cons_of_neg]
  rw [hc]
  exact Bool.false_ne_true

theorem expect_cons {c : UInt16} (hc : isBlank c = false) (s : Units) :
    expect c (c :: s) = some s := by
  rw [expect,skip_cons hc]
  exact if_pos rfl

theorem expect_of_ne {c d : UInt16} (hd : isBlank d = false) (hne : d ≠ c) (s : Units) :
    expect c (d :: s) = none := by
  rw [expect,skip_cons hd]
  exact if_neg hne

theorem key_quote (k rest : Units) : key (quote k ++ unit ':' :: rest) = some (k,rest) := by
  rw [key,quote,List.cons_append,expect_cons (by decide),List.append_assoc]
  simp only [List.cons_append,List.nil_append]
  rw [stringRest_quoted]
  simp only
  rw [expect_cons (by decide)]
  rfl

/-! ## Values -/

mutual

/-- The numbers are numbers of JSON, and no object has a key twice. -/
def Valid : Value → Prop
  | .null => True
  | .bool _ => True
  | .number literal => isNumber literal = true ∧ ∀ c ∈ literal, inNumber c = true
  | .string _ => True
  | .array items => ValidItems items
  | .object fields => (fields.map Prod.fst).Nodup ∧ ValidFields fields

def ValidItems : List Value → Prop
  | [] => True
  | v :: vs => Valid v ∧ ValidItems vs

def ValidFields : List (Units × Value) → Prop
  | [] => True
  | (_,v) :: fields => Valid v ∧ ValidFields fields

end

/-- Nothing of a number comes next. -/
def Ends (rest : Units) : Prop := ∀ c ∈ rest.head?, inNumber c = false

theorem ends_cons {c : UInt16} (hc : inNumber c = false) (s : Units) : Ends (c :: s) := by
  intro d hd
  cases hd
  exact hc

theorem put_of_notMem {fields : List (Units × Value)} {k : Units} (v : Value)
    (h : k ∉ fields.map Prod.fst) : put fields k v = fields ++ [(k,v)] := by
  refine if_neg fun hany => ?_
  obtain ⟨f,hf,hk⟩ := List.any_eq_true.mp hany
  exact h (List.mem_map.mpr ⟨f,hf,eq_of_beq hk⟩)

theorem foldl_put {fields : List (Units × Value)} (h : (fields.map Prod.fst).Nodup) :
    fields.foldl (fun o f => put o f.1 f.2) [] = fields := by
  induction fields using List.reverseRecOn with
  | nil => rfl
  | append_singleton fields f ih =>
    rw [List.map_append,List.nodup_append] at h
    rw [List.foldl_concat,ih h.1]
    refine put_of_notMem f.2 fun hmem => ?_
    exact h.2.2 _ hmem _ (List.mem_singleton_self _) rfl

/-- What a value begins with. -/
theorem head_stringify {v : Value} (h : Valid v) :
    ∃ c s, stringify v = c :: s ∧ isBlank c = false ∧ c ≠ unit ']' ∧ c ≠ unit '}' ∧
      c ≠ 0xFEFF := by
  cases v with
  | null => exact ⟨_,_,rfl,by decide,by decide,by decide,by decide⟩
  | bool b => cases b <;> exact ⟨_,_,rfl,by decide,by decide,by decide,by decide⟩
  | number literal =>
    obtain ⟨hnumber,hin⟩ := h
    cases literal with
    | nil => cases hnumber
    | cons c s =>
      have hc := hin c List.mem_cons_self
      refine ⟨c,s,rfl,?_,?_,?_,?_⟩
      · rw [Bool.eq_false_iff]
        intro hblank
        rw [isBlank,Bool.or_eq_true,Bool.or_eq_true,Bool.or_eq_true,decide_eq_true_iff,
          decide_eq_true_iff,decide_eq_true_iff,decide_eq_true_iff] at hblank
        rcases hblank with ((rfl | rfl) | rfl) | rfl <;> exact absurd hc (by decide)
      iterate 3
        · rintro rfl
          exact absurd hc (by decide)
  | string s => exact ⟨_,_,rfl,by decide,by decide,by decide,by decide⟩
  | array items => cases items <;> exact ⟨_,_,rfl,by decide,by decide,by decide,by decide⟩
  | object fields =>
    rcases fields with _ | ⟨⟨k,v⟩,fields⟩ <;> exact ⟨_,_,rfl,by decide,by decide,by decide,by decide⟩

theorem value_cons {c : UInt16} (hc : isBlank c = false) (n : ℕ) (cs : Units) :
    value (n + 1) (c :: cs) =
      if c = unit '"' then (stringRest cs).map (fun p => (.string p.1,p.2))
      else if c = unit '{' then
        match expect (unit '}') cs with
        | some rest => some (.object [],rest)
        | none =>
          (members n cs).map (fun p => (.object (p.1.foldl (fun o f => put o f.1 f.2) []),p.2))
      else if c = unit '[' then
        match expect (unit ']') cs with
        | some rest => some (.array [],rest)
        | none => (elements n cs).map (fun p => (.array p.1,p.2))
      else if inNumber c then number (c :: cs)
      else keyword (c :: cs) := by
  have hvalue := value.eq_2 (c :: cs) n
  rw [skip_cons hc] at hvalue
  exact hvalue

theorem number_append {literal rest : Units} (h : Valid (.number literal)) (hrest : Ends rest) :
    number (literal ++ rest) = some (.number literal,rest) := by
  have hnone : rest.takeWhile inNumber = [] ∧ rest.dropWhile inNumber = rest := by
    cases rest with
    | nil => exact ⟨rfl,rfl⟩
    | cons c rest =>
      have hc : ¬inNumber c = true := Bool.eq_false_iff.mp (hrest c rfl)
      exact ⟨List.takeWhile_cons_of_neg hc,List.dropWhile_cons_of_neg hc⟩
  rw [number,List.takeWhile_append_of_pos h.2,List.dropWhile_append_of_pos h.2,hnone.1,hnone.2,
    List.append_nil,if_pos h.1]

theorem value_number {literal rest : Units} (h : Valid (.number literal)) (hrest : Ends rest)
    (n : ℕ) : value (n + 1) (literal ++ rest) = some (.number literal,rest) := by
  obtain ⟨c,s,hs,hblank,-,-⟩ := head_stringify h
  rw [stringify] at hs
  have hc : inNumber c = true := h.2 c (hs ▸ List.mem_cons_self)
  have hne (d : UInt16) (hd : inNumber d = false) : c ≠ d := by
    rintro rfl
    rw [hd] at hc
    cases hc
  rw [hs,List.cons_append,value_cons hblank,if_neg (hne _ (by decide)),if_neg (hne _ (by decide)),
    if_neg (hne _ (by decide)),if_pos hc,← List.cons_append,← hs]
  exact number_append h hrest

theorem word_append (w : String) (v : Value) (rest : Units) :
    word w v (units w ++ rest) = some (v,rest) := by
  rw [word,if_pos (List.prefix_append _ _),List.drop_left]

theorem value_null (n : ℕ) (rest : Units) :
    value (n + 1) (units "null" ++ rest) = some (.null,rest) := by
  have hword : word "null" .null (unit 'n' :: (units "ull" ++ rest)) = some (.null,rest) :=
    word_append "null" .null rest
  change value (n + 1) (unit 'n' :: (units "ull" ++ rest)) = _
  rw [value_cons (by decide),if_neg (by decide),if_neg (by decide),if_neg (by decide),
    if_neg (by decide),keyword,hword]
  rfl

theorem value_bool (b : Bool) (n : ℕ) (rest : Units) :
    value (n + 1) (stringify (.bool b) ++ rest) = some (.bool b,rest) := by
  have hnone (w : String) (v : Value) {c d : UInt16} {u : Units} (hw : units w = c :: u)
      (hne : c ≠ d) (s : Units) : word w v (d :: s) = none := by
    refine if_neg fun hpre => ?_
    rw [hw,List.cons_prefix_cons] at hpre
    exact hne hpre.1
  cases b with
  | true =>
    have hword : word "true" (.bool true) (unit 't' :: (units "rue" ++ rest)) =
        some (.bool true,rest) := word_append "true" (.bool true) rest
    change value (n + 1) (unit 't' :: (units "rue" ++ rest)) = _
    rw [value_cons (by decide),if_neg (by decide),if_neg (by decide),if_neg (by decide),
      if_neg (by decide),keyword,hnone "null" .null rfl (by decide),hword]
    rfl
  | false =>
    have hword : word "false" (.bool false) (unit 'f' :: (units "alse" ++ rest)) =
        some (.bool false,rest) := word_append "false" (.bool false) rest
    change value (n + 1) (unit 'f' :: (units "alse" ++ rest)) = _
    rw [value_cons (by decide),if_neg (by decide),if_neg (by decide),if_neg (by decide),
      if_neg (by decide),keyword,hnone "null" .null rfl (by decide),
      hnone "true" (.bool true) rfl (by decide)]
    exact hword

theorem value_string (s : Units) (n : ℕ) (rest : Units) :
    value (n + 1) (quote s ++ rest) = some (.string s,rest) := by
  rw [quote,List.cons_append,value_cons (by decide),if_pos rfl,List.append_assoc]
  simp only [List.cons_append,List.nil_append]
  rw [stringRest_quoted]
  rfl

/-! ## What is written is read back -/

/-- The parser reads the value at the front of a text, whatever else comes. -/
def Reads (v : Value) : Prop := ∀ rest n, Ends rest →
  2 * (stringify v ++ rest).length + 1 ≤ n → value n (stringify v ++ rest) = some (v,rest)

theorem ends_stringifyItems (vs : List Value) (rest : Units) :
    Ends (stringifyItems vs ++ rest) := by
  cases vs with
  | nil => exact ends_cons (by decide) rest
  | cons v vs =>
    rw [stringifyItems,List.cons_append]
    exact ends_cons (by decide) _

theorem ends_stringifyFields (fields : List (Units × Value)) (rest : Units) :
    Ends (stringifyFields fields ++ rest) := by
  cases fields with
  | nil => exact ends_cons (by decide) rest
  | cons f fields =>
    rw [stringifyFields,List.cons_append]
    exact ends_cons (by decide) _

theorem elements_stringify {v : Value} {vs : List Value} (h : ∀ w ∈ v :: vs, Reads w)
    {rest : Units} {n : ℕ}
    (hn : 2 * (stringify v ++ (stringifyItems vs ++ rest)).length + 2 ≤ n + 1) :
    elements (n + 1) (stringify v ++ (stringifyItems vs ++ rest)) = some (v :: vs,rest) := by
  induction vs generalizing v n with
  | nil =>
    rw [elements,h v List.mem_cons_self _ n (ends_stringifyItems _ rest) (by omega)]
    simp only [List.cons_append,List.nil_append,stringifyItems]
    rw [expect_of_ne (by decide) (by decide),expect_cons (by decide)]
    rfl
  | cons w ws ih =>
    rw [elements,h v List.mem_cons_self _ n (ends_stringifyItems _ rest) (by omega)]
    simp only [stringifyItems,List.cons_append,List.append_assoc,List.length_append,
      List.length_cons] at hn ⊢
    rw [expect_cons (by decide)]
    obtain ⟨n,rfl⟩ := Nat.exists_eq_succ_of_ne_zero (n := n) (by omega)
    simp only
    rw [ih (fun u hu => h u (List.mem_cons_of_mem _ hu))]
    · rfl
    · simp only [List.length_append]
      omega

theorem members_stringify {k : Units} {v : Value} {fields : List (Units × Value)}
    (h : ∀ f ∈ (k,v) :: fields, Reads f.2) {rest : Units} {n : ℕ}
    (hn : 2 * (quote k ++ unit ':' :: (stringify v ++ (stringifyFields fields ++ rest))).length + 2 ≤
      n + 1) :
    members (n + 1) (quote k ++ unit ':' :: (stringify v ++ (stringifyFields fields ++ rest))) =
      some ((k,v) :: fields,rest) := by
  induction fields generalizing k v n with
  | nil =>
    have hv : Reads v := h (k,v) List.mem_cons_self
    rw [List.length_append,List.length_cons] at hn
    rw [members,key_quote]
    simp only
    rw [hv _ n (ends_stringifyFields _ rest) (by omega)]
    simp only [List.cons_append,List.nil_append,stringifyFields]
    rw [expect_of_ne (by decide) (by decide),expect_cons (by decide)]
    rfl
  | cons f fields ih =>
    obtain ⟨k',v'⟩ := f
    have hv : Reads v := h (k,v) List.mem_cons_self
    rw [List.length_append,List.length_cons] at hn
    rw [members,key_quote]
    simp only
    rw [hv _ n (ends_stringifyFields _ rest) (by omega)]
    simp only [stringifyFields,List.cons_append,List.append_assoc,List.length_append,
      List.length_cons] at hn ⊢
    rw [expect_cons (by decide)]
    obtain ⟨n,rfl⟩ := Nat.exists_eq_succ_of_ne_zero (n := n) (by omega)
    simp only
    rw [ih (fun g hg => h g (List.mem_cons_of_mem _ hg))]
    · rfl
    · simp only [List.length_append,List.length_cons]
      omega

theorem reads_array {v : Value} {vs : List Value} (hv : Valid v)
    (h : ∀ w ∈ v :: vs, Reads w) : Reads (.array (v :: vs)) := by
  intro rest n _ hn
  obtain ⟨c,s,hs,hblank,hne,-⟩ := head_stringify hv
  have hnone : expect (unit ']') (stringify v ++ (stringifyItems vs ++ rest)) = none := by
    rw [hs,List.cons_append]
    exact expect_of_ne hblank hne _
  rw [stringify,List.cons_append,List.length_cons,List.append_assoc] at hn
  obtain ⟨n,rfl⟩ := Nat.exists_eq_succ_of_ne_zero (n := n) (by omega)
  obtain ⟨n,rfl⟩ := Nat.exists_eq_succ_of_ne_zero (n := n) (by omega)
  rw [stringify,List.cons_append,List.append_assoc,value_cons (by decide),if_neg (by decide),
    if_neg (by decide),if_pos rfl,hnone]
  simp only
  rw [elements_stringify h (by omega)]
  rfl

theorem reads_object {k : Units} {v : Value} {fields : List (Units × Value)}
    (hkeys : (((k,v) :: fields).map Prod.fst).Nodup) (h : ∀ f ∈ (k,v) :: fields, Reads f.2) :
    Reads (.object ((k,v) :: fields)) := by
  intro rest n _ hn
  have hnone : expect (unit '}')
      (quote k ++ unit ':' :: (stringify v ++ (stringifyFields fields ++ rest))) = none :=
    expect_of_ne (by decide) (by decide) _
  rw [stringify,List.cons_append,List.length_cons,List.append_assoc,List.cons_append,
    List.append_assoc] at hn
  obtain ⟨n,rfl⟩ := Nat.exists_eq_succ_of_ne_zero (n := n) (by omega)
  obtain ⟨n,rfl⟩ := Nat.exists_eq_succ_of_ne_zero (n := n) (by omega)
  rw [stringify,List.cons_append,List.append_assoc,List.cons_append,List.append_assoc,
    value_cons (by decide),if_neg (by decide),if_pos rfl,hnone]
  simp only
  rw [members_stringify h (by omega)]
  exact congrArg (fun fields => some (Value.object fields,rest)) (foldl_put hkeys)

mutual

theorem reads_of_valid : ∀ {v : Value}, Valid v → Reads v
  | .null,_ => fun rest n _ hn => by
    obtain ⟨n,rfl⟩ := Nat.exists_eq_succ_of_ne_zero (n := n) (by omega)
    exact value_null n rest
  | .bool b,_ => fun rest n _ hn => by
    obtain ⟨n,rfl⟩ := Nat.exists_eq_succ_of_ne_zero (n := n) (by omega)
    exact value_bool b n rest
  | .number _,h => fun rest n hrest hn => by
    obtain ⟨n,rfl⟩ := Nat.exists_eq_succ_of_ne_zero (n := n) (by omega)
    exact value_number h hrest n
  | .string s,_ => fun rest n _ hn => by
    obtain ⟨n,rfl⟩ := Nat.exists_eq_succ_of_ne_zero (n := n) (by omega)
    exact value_string s n rest
  | .array [],_ => fun rest n _ hn => by
    obtain ⟨n,rfl⟩ := Nat.exists_eq_succ_of_ne_zero (n := n) (by omega)
    change value (n + 1) (unit '[' :: unit ']' :: rest) = _
    rw [value_cons (by decide),if_neg (by decide),if_neg (by decide),if_pos rfl,
      expect_cons (by decide)]
  | .array (_ :: _),h => reads_array h.1
      (List.forall_mem_cons.mpr ⟨reads_of_valid h.1,reads_of_validItems h.2⟩)
  | .object [],_ => fun rest n _ hn => by
    obtain ⟨n,rfl⟩ := Nat.exists_eq_succ_of_ne_zero (n := n) (by omega)
    change value (n + 1) (unit '{' :: unit '}' :: rest) = _
    rw [value_cons (by decide),if_neg (by decide),if_pos rfl,expect_cons (by decide)]
  | .object ((_,_) :: _),h => reads_object h.1
      (List.forall_mem_cons.mpr ⟨reads_of_valid h.2.1,reads_of_validFields h.2.2⟩)

theorem reads_of_validItems : ∀ {vs : List Value}, ValidItems vs → ∀ w ∈ vs, Reads w
  | [],_ => List.forall_mem_nil _
  | _ :: _,h => List.forall_mem_cons.mpr ⟨reads_of_valid h.1,reads_of_validItems h.2⟩

theorem reads_of_validFields : ∀ {fields : List (Units × Value)}, ValidFields fields →
    ∀ f ∈ fields, Reads f.2
  | [],_ => List.forall_mem_nil _
  | (_,_) :: _,h => List.forall_mem_cons.mpr ⟨reads_of_valid h.1,reads_of_validFields h.2⟩

end

/-- `JSON.parse` reads what `JSON.stringify` writes. -/
theorem parse_stringify {v : Value} (h : Valid v) : parse (stringify v) = some v := by
  have hread := reads_of_valid h [] (2 * (stringify v).length + 1) (fun c hc => (nomatch hc))
    (by rw [List.append_nil])
  rw [List.append_nil] at hread
  rw [parse,hread]
  rfl

end Rullama.Text.Json

/-! ## Counts in decimal digits

A natural number as it stands in a text or in JSON.
-/
namespace Rullama.Text

def digitUnit (d : ℕ) : UInt16 := unit '0' + UInt16.ofNat d

def decimal (n : ℕ) : Units :=
  if n = 0 then [unit '0'] else (Nat.digits 10 n).reverse.map digitUnit

def ofDecimal (s : Units) : ℕ := Nat.ofDigits 10 (s.reverse.map (fun c => (c - unit '0').toNat))

theorem digitUnit_spec {d : ℕ} (h : d < 10) :
    isDigit (digitUnit d) = true ∧ (digitUnit d - unit '0').toNat = d ∧
      (digitUnit d = unit '0' → d = 0) := by
  have hall : ∀ d < 10, isDigit (digitUnit d) = true ∧ (digitUnit d - unit '0').toNat = d ∧
      (digitUnit d = unit '0' → d = 0) := by decide
  exact hall d h

theorem ofDecimal_decimal (n : ℕ) : ofDecimal (decimal n) = n := by
  unfold decimal
  split
  · rename_i hn
    rw [hn]
    decide
  · have hdigits : (Nat.digits 10 n).map (fun d => (digitUnit d - unit '0').toNat) =
        Nat.digits 10 n := by
      conv_rhs => rw [← List.map_id (Nat.digits 10 n)]
      refine List.map_congr_left fun d hd => ?_
      exact (digitUnit_spec (Nat.digits_lt_base (by decide) hd)).2.1
    rw [ofDecimal,← List.map_reverse,List.reverse_reverse,List.map_map]
    exact (congrArg _ hdigits).trans (Nat.ofDigits_digits 10 n)

theorem decimal_injective : Function.Injective decimal :=
  Function.LeftInverse.injective ofDecimal_decimal

theorem isDigit_of_mem_decimal {n : ℕ} {c : UInt16} (h : c ∈ decimal n) : isDigit c = true := by
  unfold decimal at h
  split at h
  · rw [List.mem_singleton.mp h]
    decide
  · obtain ⟨d,hd,rfl⟩ := List.mem_map.mp h
    exact (digitUnit_spec (Nat.digits_lt_base (by decide) (List.mem_reverse.mp hd))).1

/-- No zero stands before another digit. -/
theorem head_decimal {n : ℕ} (hn : n ≠ 0) :
    decimal n ≠ [] ∧ (decimal n).head? ≠ some (unit '0') := by
  have hne : Nat.digits 10 n ≠ [] := Nat.digits_ne_nil_iff_ne_zero.mpr hn
  rw [decimal,if_neg hn]
  refine ⟨fun h => hne (by simpa using h),?_⟩
  rw [List.head?_map,List.head?_reverse,List.getLast?_eq_getLast_of_ne_nil hne]
  intro hzero
  have hlast := Nat.digits_lt_base (b := 10) (m := n) (by decide) (List.getLast_mem hne)
  exact Nat.getLast_digit_ne_zero 10 hn ((digitUnit_spec hlast).2.2 (Option.some.inj hzero))

theorem valid_decimal (n : ℕ) : Json.Valid (.number (decimal n)) := by
  have hdigits : ∀ c ∈ decimal n, isDigit c = true := fun c hc => isDigit_of_mem_decimal hc
  refine ⟨?_,fun c hc => ?_⟩
  · by_cases hn : n = 0
    · rw [hn]
      decide
    · obtain ⟨hne,hhead⟩ := head_decimal hn
      obtain ⟨c,s,hs⟩ := List.exists_cons_of_ne_nil hne
      rw [hs] at hdigits hhead
      have hc : c ≠ unit '-' := by
        rintro rfl
        exact absurd (hdigits _ List.mem_cons_self) (by decide)
      have htake : (c :: s).takeWhile isDigit = c :: s :=
        List.takeWhile_eq_self_iff.mpr hdigits
      have hdrop : (c :: s).dropWhile isDigit = [] := List.dropWhile_eq_nil_iff.mpr hdigits
      rw [hs,Json.isNumber]
      simp only [if_neg hc,htake,hdrop]
      rw [bne_iff_ne.mpr hhead]
      simp [Json.fractionOk]
  · rw [Json.inNumber,hdigits c hc]
    simp

end Rullama.Text
