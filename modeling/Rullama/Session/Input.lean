import Mathlib.Data.List.Infix
import Mathlib.Tactic.Common

/-! # Session input: from the client to the PTY

The client sends what the user types and, between it, messages of eight bytes that tell the
size of its window. The server takes the messages out of what each read gives it and writes
the rest to the PTY.
-/
namespace Rullama.Session

def esc : UInt8 := 0x1b

/-- ESC ] W S -/
def magic : List UInt8 := [esc,0x5d,0x57,0x53]

def toBeBytes (n : UInt16) : List UInt8 := [.ofNat (n.toNat / 256),.ofNat (n.toNat % 256)]

def fromBeBytes (high low : UInt8) : UInt16 := .ofNat (high.toNat * 256 + low.toNat)

/-- The message of `send_winsize_to`. -/
def winsizeMessage (cols rows : UInt16) : List UInt8 := magic ++ toBeBytes cols ++ toBeBytes rows

/-- The message the server sees at the head of its buffer, if the whole of it is there. -/
def windowSize : List UInt8 → Option (UInt16 × UInt16)
  | 0x1b :: 0x5d :: 0x57 :: 0x53 :: c₀ :: c₁ :: r₀ :: r₁ :: _ =>
    some (fromBeBytes c₀ c₁,fromBeBytes r₀ r₁)
  | _ => none

/-! ## What the client sends -/

inductive Item where
  | key (b : UInt8)
  | winsize (cols rows : UInt16)
deriving DecidableEq

def Item.encode : Item → List UInt8
  | .key b => [b]
  | .winsize cols rows => winsizeMessage cols rows

def encode (items : List Item) : List UInt8 := items.flatMap Item.encode

def typed (items : List Item) : List UInt8 :=
  items.filterMap (fun
    | .key b => some b
    | .winsize _ _ => none)

def sizes (items : List Item) : List (UInt16 × UInt16) :=
  items.filterMap (fun
    | .key _ => none
    | .winsize cols rows => some (cols,rows))

@[simp] theorem encode_nil : encode [] = [] := rfl
@[simp] theorem encode_cons (item : Item) (items : List Item) :
    encode (item :: items) = item.encode ++ encode items := rfl
@[simp] theorem typed_nil : typed [] = [] := rfl
@[simp] theorem typed_key (b : UInt8) (items : List Item) :
    typed (.key b :: items) = b :: typed items := rfl
@[simp] theorem typed_winsize (cols rows : UInt16) (items : List Item) :
    typed (.winsize cols rows :: items) = typed items := rfl
@[simp] theorem sizes_nil : sizes [] = [] := rfl
@[simp] theorem sizes_key (b : UInt8) (items : List Item) :
    sizes (.key b :: items) = sizes items := rfl
@[simp] theorem sizes_winsize (cols rows : UInt16) (items : List Item) :
    sizes (.winsize cols rows :: items) = (cols,rows) :: sizes items := rfl
@[simp] theorem typed_append (items items' : List Item) :
    typed (items ++ items') = typed items ++ typed items' := List.filterMap_append
@[simp] theorem sizes_append (items items' : List Item) :
    sizes (items ++ items') = sizes items ++ sizes items' := List.filterMap_append
@[simp] theorem encode_append (items items' : List Item) :
    encode (items ++ items') = encode items ++ encode items' := List.flatMap_append

theorem fromBeBytes_toBeBytes (n : UInt16) :
    fromBeBytes (.ofNat (n.toNat / 256)) (.ofNat (n.toNat % 256)) = n := by
  have hn := n.toNat_lt
  apply UInt16.toNat_inj.mp
  simp only [fromBeBytes,UInt16.toNat_ofNat',UInt8.toNat_ofNat']
  omega

theorem toBeBytes_fromBeBytes (high low : UInt8) :
    toBeBytes (fromBeBytes high low) = [high,low] := by
  have hhigh := high.toNat_lt
  have hlow := low.toNat_lt
  have hn : (fromBeBytes high low).toNat = high.toNat * 256 + low.toNat := by
    simp only [fromBeBytes,UInt16.toNat_ofNat']
    omega
  have hdiv : (high.toNat * 256 + low.toNat) / 256 = high.toNat := by omega
  have hmod : (high.toNat * 256 + low.toNat) % 256 = low.toNat := by omega
  rw [toBeBytes,hn,hdiv,hmod,UInt8.ofNat_toNat,UInt8.ofNat_toNat]

theorem length_winsizeMessage (cols rows : UInt16) : (winsizeMessage cols rows).length = 8 := rfl

theorem winsizeMessage_injective {cols rows cols' rows' : UInt16}
    (h : winsizeMessage cols rows = winsizeMessage cols' rows') : cols = cols' ∧ rows = rows' := by
  simp only [winsizeMessage,toBeBytes,magic,List.cons_append,List.nil_append,List.cons.injEq,
    true_and,and_true] at h
  obtain ⟨hc₀,hc₁,hr₀,hr₁⟩ := h
  constructor
  · rw [← fromBeBytes_toBeBytes cols,hc₀,hc₁,fromBeBytes_toBeBytes]
  · rw [← fromBeBytes_toBeBytes rows,hr₀,hr₁,fromBeBytes_toBeBytes]

theorem windowSize_message (cols rows : UInt16) (rest : List UInt8) :
    windowSize (winsizeMessage cols rows ++ rest) = some (cols,rows) := by
  simp only [winsizeMessage,magic,esc,toBeBytes,List.cons_append,List.nil_append,windowSize,
    fromBeBytes_toBeBytes]

theorem eq_of_windowSize {data : List UInt8} {cols rows : UInt16}
    (h : windowSize data = some (cols,rows)) :
    data = winsizeMessage cols rows ++ data.drop 8 := by
  unfold windowSize at h
  split at h
  · obtain ⟨rfl,rfl⟩ := Prod.mk.inj (Option.some.inj h)
    simp [winsizeMessage,magic,esc,toBeBytes_fromBeBytes]
  · cases h

/-! ## The items a buffer reads as -/

/-- The buffer read byte for byte, messages where they begin. -/
def decode (data : List UInt8) : List Item :=
  match data with
  | [] => []
  | b :: rest =>
    match windowSize (b :: rest) with
    | some (cols,rows) => .winsize cols rows :: decode (rest.drop 7)
    | none => .key b :: decode rest
termination_by data.length
decreasing_by
  all_goals simp only [List.length_drop,List.length_cons]; omega

theorem encode_decode (data : List UInt8) : encode (decode data) = data := by
  fun_induction decode data with
  | case1 => rfl
  | case2 b rest cols rows h ih =>
    rw [encode_cons,ih]
    exact (eq_of_windowSize h).symm
  | case3 b rest h ih =>
    rw [encode_cons,ih]
    rfl

theorem length_encode (items : List Item) :
    (encode items).length = (typed items).length + 8 * (sizes items).length := by
  induction items with
  | nil => rfl
  | cons item items ih =>
    cases item with
    | key b =>
      simp only [encode_cons,Item.encode,List.length_append,typed_key,sizes_key,List.length_cons,
        List.length_nil,ih]
      omega
    | winsize cols rows =>
      simp only [encode_cons,Item.encode,List.length_append,length_winsizeMessage,typed_winsize,
        sizes_winsize,List.length_cons,ih]
      omega

/-- Bytes other than ESC at the head of the stream were typed. -/
theorem prefix_typed {front : List UInt8} (hfront : esc ∉ front) {items : List Item}
    (h : front <+: encode items) : front <+: typed items := by
  induction front generalizing items with
  | nil => exact List.nil_prefix
  | cons b front ih =>
    cases items with
    | nil => exact h
    | cons item items =>
      cases item with
      | key b' =>
        obtain ⟨rfl,htail⟩ := List.cons_prefix_cons.mp h
        exact List.cons_prefix_cons.mpr ⟨rfl,ih (fun hm => hfront (.tail _ hm)) htail⟩
      | winsize cols rows =>
        obtain ⟨rfl,_⟩ := List.cons_prefix_cons.mp h
        exact absurd (.head _) hfront

/-- Magic at the head of a stream that begins with a typed byte was typed. -/
theorem magic_typed {b : UInt8} {items : List Item} (h : magic <+: encode (.key b :: items)) :
    magic <+: typed (.key b :: items) := by
  obtain ⟨rfl,htail⟩ := List.cons_prefix_cons.mp h
  exact List.cons_prefix_cons.mpr ⟨rfl,prefix_typed (by decide) htail⟩

theorem not_infix_of_key {b : UInt8} {items : List Item}
    (h : ¬ magic <:+: typed (.key b :: items)) : ¬ magic <:+: typed items := by
  intro hoccurs
  exact h (hoccurs.trans (List.suffix_cons b (typed items)).isInfix)

/-- A stream of items is read in one way only, as far as the typed bytes agree and have no
magic among them. -/
theorem items_unique {items items' : List Item} (hmagic : ¬ magic <:+: typed items)
    (hencode : encode items' = encode items) (htyped : typed items' = typed items) :
    items' = items := by
  induction items generalizing items' with
  | nil =>
    cases items' with
    | nil => rfl
    | cons item items' =>
      cases item with
      | key b => cases htyped
      | winsize cols rows => cases hencode
  | cons item items ih =>
    cases items' with
    | nil =>
      cases item with
      | key b => cases htyped
      | winsize cols rows => cases hencode
    | cons item' items' =>
      cases item with
      | key b =>
        cases item' with
        | key b' =>
          obtain ⟨rfl,hrest⟩ := List.cons.inj hencode
          rw [ih (not_infix_of_key hmagic) hrest (List.cons.inj htyped).2]
        | winsize cols rows =>
          have hhead : magic <+: encode (.key b :: items) := hencode ▸ List.prefix_append magic _
          exact absurd (magic_typed hhead).isInfix hmagic
      | winsize cols rows =>
        cases item' with
        | key b' =>
          have hhead : magic <+: encode (.key b' :: items') :=
            hencode ▸ List.prefix_append magic _
          exact absurd (htyped ▸ (magic_typed hhead).isInfix) hmagic
        | winsize cols' rows' =>
          obtain ⟨hmessage,hrest⟩ := List.append_inj hencode rfl
          obtain ⟨rfl,rfl⟩ := winsizeMessage_injective hmessage
          rw [ih hmagic hrest htyped]

theorem decode_none {b : UInt8} {rest : List UInt8} (h : windowSize (b :: rest) = none) :
    decode (b :: rest) = .key b :: decode rest := by
  rw [decode]
  simp only [h]

theorem decode_message (cols rows : UInt16) (rest : List UInt8) :
    decode (winsizeMessage cols rows ++ rest) = .winsize cols rows :: decode rest := by
  have h := windowSize_message cols rows rest
  simp only [winsizeMessage,magic,List.cons_append,List.nil_append] at h ⊢
  rw [decode]
  simp only [h]
  rfl

/-- Whole items are read back. -/
theorem decode_encode {items : List Item} (hmagic : ¬ magic <:+: typed items) :
    decode (encode items) = items := by
  induction items with
  | nil =>
    rw [encode_nil,decode]
  | cons item items ih =>
    cases item with
    | winsize cols rows =>
      rw [encode_cons,Item.encode,decode_message,ih hmagic]
    | key b =>
      have hnone : windowSize (b :: encode items) = none := by
        by_contra hne
        obtain ⟨⟨cols,rows⟩,hsome⟩ := Option.ne_none_iff_exists'.mp hne
        have hhead : magic <+: encode (.key b :: items) := by
          change magic <+: b :: encode items
          rw [eq_of_windowSize hsome]
          exact List.prefix_append magic _
        exact hmagic (magic_typed hhead).isInfix
      change decode (b :: encode items) = _
      rw [decode_none hnone,ih (not_infix_of_key hmagic)]

theorem windowSize_short {data : List UInt8} (h : data.length < 8) : windowSize data = none := by
  by_contra hne
  obtain ⟨⟨cols,rows⟩,hsome⟩ := Option.ne_none_iff_exists'.mp hne
  have hlen := congrArg List.length (eq_of_windowSize hsome)
  rw [List.length_append,length_winsizeMessage] at hlen
  omega

theorem decode_short {data : List UInt8} (h : data.length < 8) : decode data = data.map .key := by
  induction data with
  | nil => rw [decode,List.map_nil]
  | cons b rest ih =>
    rw [decode_none (windowSize_short h),ih (Nat.lt_of_succ_lt h),List.map_cons]

theorem windowSize_of_ne {b : UInt8} {rest : List UInt8} (h : b ≠ esc) :
    windowSize (b :: rest) = none := by
  by_contra hne
  obtain ⟨⟨cols,rows⟩,hsome⟩ := Option.ne_none_iff_exists'.mp hne
  exact h (List.cons.inj (eq_of_windowSize hsome)).1

/-! ## The server -/

inductive Action where
  | setDefault
  | resize (cols rows : UInt16)
  | write (chunk : List UInt8)

/-- What the server does with the bytes of one read: chunks go on to the next ESC. -/
def actions (data : List UInt8) : List Action :=
  match data with
  | [] => []
  | b :: rest =>
    match windowSize (b :: rest) with
    | some (cols,rows) => .resize cols rows :: actions (rest.drop 7)
    | none => .write (b :: rest.takeWhile (· ≠ esc)) :: actions (rest.dropWhile (· ≠ esc))
termination_by data.length
decreasing_by
  · simp only [List.length_drop,List.length_cons]
    omega
  · have h := (List.dropWhile_sublist (fun b => decide (b ≠ esc)) (l := rest)).length_le
    simp only [List.length_cons]
    omega

/-- The blocking read after a client has connected, of eight bytes: with fewer it fails, and
they are lost. -/
def initialActions (first : List UInt8) : List Action :=
  if first.length = 8 then
    match windowSize first with
    | some (cols,rows) => [.resize cols rows]
    | none => [.setDefault,.write first]
  else [.setDefault]

def connection (first : List UInt8) (reads : List (List UInt8)) : List Action :=
  initialActions first ++ reads.flatMap actions

def written (acts : List Action) : List UInt8 :=
  acts.flatMap (fun
    | .write chunk => chunk
    | _ => [])

def resized (acts : List Action) : List (UInt16 × UInt16) :=
  acts.filterMap (fun
    | .resize cols rows => some (cols,rows)
    | _ => none)

/-- What reaches the PTY when the n-th write takes a prefix of this length. -/
def ptyBytes : List Action → (ℕ → ℕ) → List UInt8
  | [], _ => []
  | .write chunk :: acts, accepts =>
    chunk.take (accepts 0) ++ ptyBytes acts (fun n => accepts (n + 1))
  | _ :: acts, accepts => ptyBytes acts accepts

/-- Every write takes the whole of its buffer. -/
def TakesAll : List Action → (ℕ → ℕ) → Prop
  | [], _ => True
  | .write chunk :: acts, accepts =>
    chunk.length ≤ accepts 0 ∧ TakesAll acts (fun n => accepts (n + 1))
  | _ :: acts, accepts => TakesAll acts accepts

@[simp] theorem written_append (acts acts' : List Action) :
    written (acts ++ acts') = written acts ++ written acts' := List.flatMap_append
@[simp] theorem resized_append (acts acts' : List Action) :
    resized (acts ++ acts') = resized acts ++ resized acts' := List.filterMap_append

/-- Bytes up to the next ESC are typed whatever follows. -/
theorem decode_dropWhile (data : List UInt8) :
    typed (decode data) =
        data.takeWhile (· ≠ esc) ++ typed (decode (data.dropWhile (· ≠ esc))) ∧
      sizes (decode data) = sizes (decode (data.dropWhile (· ≠ esc))) := by
  induction data with
  | nil => simp [decode]
  | cons b rest ih =>
    by_cases hb : b = esc
    · simp [hb]
    · rw [decode_none (windowSize_of_ne hb),List.takeWhile_cons_of_pos (by simpa using hb),
        List.dropWhile_cons_of_pos (by simpa using hb)]
      exact ⟨congrArg (b :: ·) ih.1,ih.2⟩

/-- The chunks are the typed bytes of the items the buffer reads as. -/
theorem actions_decode (data : List UInt8) :
    written (actions data) = typed (decode data) ∧ resized (actions data) = sizes (decode data) := by
  fun_induction actions data with
  | case1 => rw [decode]; exact ⟨rfl,rfl⟩
  | case2 b rest cols rows h ih =>
    rw [decode]
    simp only [h]
    exact ⟨ih.1,congrArg ((cols,rows) :: ·) ih.2⟩
  | case3 b rest h ih =>
    obtain ⟨htyped,hsizes⟩ := decode_dropWhile rest
    rw [decode_none h,typed_key,sizes_key,htyped,hsizes]
    exact ⟨congrArg (b :: rest.takeWhile (· ≠ esc) ++ ·) ih.1,ih.2⟩

theorem initialActions_decode {first : List UInt8} (h : first.length = 8) :
    written (initialActions first) = typed (decode first) ∧
      resized (initialActions first) = sizes (decode first) := by
  rw [initialActions,if_pos h]
  cases hsize : windowSize first with
  | some size =>
    obtain ⟨cols,rows⟩ := size
    have hfirst := eq_of_windowSize hsize
    rw [List.drop_eq_nil_of_le (Nat.le_of_eq h)] at hfirst
    rw [hfirst,decode_message,decode]
    exact ⟨rfl,rfl⟩
  | none =>
    cases first with
    | nil => cases h
    | cons b rest =>
      have hrest : rest.length < 8 := by
        rw [List.length_cons] at h
        omega
      rw [decode_none hsize,decode_short hrest]
      constructor
      · simp [written,typed,List.filterMap_map]
      · simp [resized,sizes,List.filterMap_map]

theorem length_ptyBytes_le (acts : List Action) (accepts : ℕ → ℕ) :
    (ptyBytes acts accepts).length ≤ (written acts).length := by
  induction acts generalizing accepts with
  | nil => exact Nat.le_refl 0
  | cons act acts ih =>
    cases act with
    | write chunk =>
      have hrest := ih (fun n => accepts (n + 1))
      simp only [ptyBytes,written,List.flatMap_cons,List.length_append,List.length_take] at hrest ⊢
      omega
    | setDefault => exact ih accepts
    | resize cols rows => exact ih accepts

theorem takesAll_iff (acts : List Action) (accepts : ℕ → ℕ) :
    TakesAll acts accepts ↔ (written acts).length ≤ (ptyBytes acts accepts).length := by
  induction acts generalizing accepts with
  | nil => exact iff_of_true trivial (Nat.le_refl 0)
  | cons act acts ih =>
    cases act with
    | write chunk =>
      have hrest := length_ptyBytes_le acts (fun n => accepts (n + 1))
      rw [TakesAll,ih]
      simp only [ptyBytes,written,List.flatMap_cons,List.length_append,List.length_take] at hrest ⊢
      omega
    | setDefault => exact ih accepts
    | resize cols rows => exact ih accepts

theorem takesAll_of_le {acts : List Action} {accepts : ℕ → ℕ}
    (h : ∀ n, (written acts).length ≤ accepts n) : TakesAll acts accepts := by
  induction acts generalizing accepts with
  | nil => trivial
  | cons act acts ih =>
    cases act with
    | write chunk =>
      simp only [written,List.flatMap_cons,List.length_append] at h
      exact ⟨Nat.le_of_add_right_le (h 0),ih (fun n => Nat.le_of_add_left_le (h (n + 1)))⟩
    | setDefault => exact ih h
    | resize cols rows => exact ih h

theorem ptyBytes_of_takesAll {acts : List Action} {accepts : ℕ → ℕ} (h : TakesAll acts accepts) :
    ptyBytes acts accepts = written acts := by
  induction acts generalizing accepts with
  | nil => rfl
  | cons act acts ih =>
    cases act with
    | write chunk =>
      rw [ptyBytes,List.take_of_length_le h.1,ih h.2]
      rfl
    | setDefault => exact ih h
    | resize cols rows => exact ih h

/-! ## Transparency -/

/-- The PTY has received what was typed, and every message was applied. -/
structure Transparent (items : List Item) (acts : List Action) (accepts : ℕ → ℕ) : Prop where
  bytes : ptyBytes acts accepts = typed items
  applied : resized acts = sizes items

/-- The reads cut the stream between items: no message is split. -/
def Whole (items : List Item) (reads : List (List UInt8)) : Prop :=
  ∃ groups : List (List Item), groups.flatten = items ∧ groups.map encode = reads

/-- The items that the server takes the stream for. -/
def received (first : List UInt8) (reads : List (List UInt8)) : List Item :=
  (if first.length = 8 then decode first else []) ++ reads.flatMap decode

theorem connection_received (first : List UInt8) (reads : List (List UInt8)) :
    written (connection first reads) = typed (received first reads) ∧
      resized (connection first reads) = sizes (received first reads) := by
  have hreads : written (reads.flatMap actions) = typed (reads.flatMap decode) ∧
      resized (reads.flatMap actions) = sizes (reads.flatMap decode) := by
    induction reads with
    | nil => exact ⟨rfl,rfl⟩
    | cons data reads ih =>
      obtain ⟨hw,hr⟩ := actions_decode data
      simp only [List.flatMap_cons,written_append,resized_append,typed_append,sizes_append,hw,hr,
        ih.1,ih.2,and_self]
  have hfirst : written (initialActions first) =
        typed (if first.length = 8 then decode first else []) ∧
      resized (initialActions first) = sizes (if first.length = 8 then decode first else []) := by
    by_cases h : first.length = 8
    · rw [if_pos h]
      exact initialActions_decode h
    · rw [if_neg h,initialActions,if_neg h]
      exact ⟨rfl,rfl⟩
  rw [connection,received,written_append,resized_append,typed_append,sizes_append,hreads.1,
    hreads.2,hfirst.1,hfirst.2]
  exact ⟨rfl,rfl⟩

theorem encode_received (first : List UInt8) (reads : List (List UInt8)) :
    encode (received first reads) =
      (if first.length = 8 then first else []) ++ reads.flatten := by
  have hreads : encode (reads.flatMap decode) = reads.flatten := by
    induction reads with
    | nil => rfl
    | cons data reads ih =>
      rw [List.flatMap_cons,encode_append,encode_decode,ih,List.flatten_cons]
  rw [received,encode_append,hreads]
  by_cases h : first.length = 8
  · rw [if_pos h,if_pos h,encode_decode]
  · rw [if_neg h,if_neg h,encode_nil]

variable {items : List Item} {first : List UInt8} {reads : List (List UInt8)} {accepts : ℕ → ℕ}

/-- Where the first read is whole or takes nothing, the server takes the stream for what it
is exactly when the reads cut it between items. -/
theorem received_eq_iff (hmagic : ¬ magic <:+: typed items)
    (hfirst : first.length = 8 ∨ first = []) :
    received first reads = items ↔ Whole items (first :: reads) := by
  have hgroups : received first reads = ((first :: reads).map decode).flatten := by
    rw [received,List.map_cons,List.flatten_cons,List.flatMap_def]
    rcases hfirst with h | rfl
    · rw [if_pos h]
    · rw [decode]
      rfl
  rw [hgroups]
  constructor
  · intro h
    refine ⟨(first :: reads).map decode,h,?_⟩
    rw [List.map_map]
    exact List.map_id'' encode_decode _
  · rintro ⟨groups,hitems,hencode⟩
    have hdecode : ∀ group ∈ groups, decode (encode group) = group := by
      intro group hgroup
      apply decode_encode
      intro hoccurs
      obtain ⟨before,after,rfl⟩ := List.append_of_mem hgroup
      apply hmagic
      rw [← hitems,List.flatten_append,List.flatten_cons,typed_append,typed_append]
      exact hoccurs.trans ⟨typed before.flatten,typed after.flatten,by simp⟩
    have hmap : groups.map (decode ∘ encode) = groups :=
      (List.map_congr_left hdecode).trans (List.map_id' groups)
    rw [← hencode,List.map_map,hmap,hitems]

/-- A stream that is all accounted for has lost nothing in the first read. -/
theorem Transparent.complete (h : Transparent items (connection first reads) accepts)
    (hstream : first ++ reads.flatten = encode items) :
    (first.length = 8 ∨ first = []) ∧ TakesAll (connection first reads) accepts := by
  obtain ⟨hwritten,hresized⟩ := connection_received first reads
  have hle := length_ptyBytes_le (connection first reads) accepts
  have hlen := length_encode (received first reads)
  have htotal := length_encode items
  have happlied := congrArg List.length (hresized.symm.trans h.applied)
  have hbytes := congrArg List.length h.bytes
  have hstreamLen := congrArg List.length hstream
  rw [encode_received,← hwritten,List.length_append] at hlen
  rw [List.length_append] at hstreamLen
  have hread : first.length = 8 ∨ first = [] := by
    by_cases h8 : first.length = 8
    · exact .inl h8
    · rw [if_neg h8,List.length_nil] at hlen
      exact .inr (List.eq_nil_of_length_eq_zero (by omega))
  refine ⟨hread,(takesAll_iff _ _).mpr ?_⟩
  have hkept : (if first.length = 8 then first else []).length = first.length := by
    rcases hread with h8 | rfl
    · rw [if_pos h8]
    · rfl
  omega

/-- The input is transparent exactly when the first read loses nothing, no message is split
between two reads, and every write takes its whole buffer. -/
theorem transparent_iff (hmagic : ¬ magic <:+: typed items)
    (hstream : first ++ reads.flatten = encode items) :
    Transparent items (connection first reads) accepts ↔
      (first.length = 8 ∨ first = []) ∧ Whole items (first :: reads) ∧
        TakesAll (connection first reads) accepts := by
  obtain ⟨hwritten,hresized⟩ := connection_received first reads
  constructor
  · intro h
    obtain ⟨hread,htakes⟩ := h.complete hstream
    refine ⟨hread,(received_eq_iff hmagic hread).mp ?_,htakes⟩
    apply items_unique hmagic
    · rw [encode_received,← hstream]
      rcases hread with h8 | rfl
      · rw [if_pos h8]
      · rfl
    · rw [← hwritten,← ptyBytes_of_takesAll htakes]
      exact h.bytes
  · rintro ⟨hread,hwhole,htakes⟩
    have hitems := (received_eq_iff hmagic hread).mpr hwhole
    constructor
    · rw [ptyBytes_of_takesAll htakes,hwritten,hitems]
    · rw [hresized,hitems]

/-- A size, a key, and another size in one read with a second key. -/
def wholeItems : List Item := [.winsize 80 24,.key 0x61,.winsize 100 30,.key 0x62]

def wholeReads : List (List UInt8) := [[0x61],winsizeMessage 100 30 ++ [0x62]]

theorem wholeReads_transparent :
    Transparent wholeItems (connection (winsizeMessage 80 24) wholeReads) (fun _ => 8) := by
  have hwhole : Whole wholeItems (winsizeMessage 80 24 :: wholeReads) :=
    ⟨[[.winsize 80 24],[.key 0x61],[.winsize 100 30,.key 0x62]],rfl,rfl⟩
  have hmagic : ¬ magic <:+: typed wholeItems := by decide
  have hstream : winsizeMessage 80 24 ++ wholeReads.flatten = encode wholeItems := rfl
  apply (transparent_iff hmagic hstream).mpr
  refine ⟨.inl rfl,hwhole,takesAll_of_le ?_⟩
  intro n
  rw [(connection_received _ _).1,(received_eq_iff hmagic (.inl rfl)).mpr hwhole]
  decide

def splitItems : List Item := [.winsize 80 24,.winsize 100 30]

def splitReads : List (List UInt8) :=
  [(winsizeMessage 100 30).take 4,(winsizeMessage 100 30).drop 4]

/-- A message split between two reads is not applied. -/
theorem splitReads_not_transparent :
    ¬ magic <:+: typed splitItems ∧
    ¬ ∀ first reads, first.length ≤ 8 → (∀ data ∈ reads, data ≠ [] ∧ data.length ≤ 4096) →
      first ++ reads.flatten = encode splitItems →
      Transparent splitItems (connection first reads) (fun _ => 8) := by
  refine ⟨by decide,fun h => ?_⟩
  have htransparent := h (winsizeMessage 80 24) splitReads (by decide) (by decide) rfl
  have happlied := htransparent.applied
  have hfirst : decode (winsizeMessage 80 24) = [.winsize 80 24] := by
    have hmessage := decode_message 80 24 []
    rw [List.append_nil,decode] at hmessage
    exact hmessage
  have hreads : splitReads.flatMap decode =
      ((winsizeMessage 100 30).take 4).map .key ++ ((winsizeMessage 100 30).drop 4).map .key := by
    rw [splitReads,List.flatMap_cons,List.flatMap_cons,List.flatMap_nil,List.append_nil,
      decode_short (by decide),decode_short (by decide)]
  rw [(connection_received _ _).2,received,if_pos (length_winsizeMessage 80 24),hfirst,
    hreads] at happlied
  exact absurd happlied (by decide)

end Rullama.Session
