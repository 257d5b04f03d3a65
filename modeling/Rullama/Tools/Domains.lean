import Rullama.Tools.Executor

/-! # Domains of URLs

The domain that is judged before a request, against the host that the request goes to. A URL is
given by its parts. The standard library's `to_lowercase` is a parameter of which only ASCII is
used.
-/
namespace Rullama.Tools

/-! ## URLs -/

def hexDigit? (c : Char) : Option ℕ :=
  if c.isDigit then some (c.toNat - '0'.toNat)
  else if 'a' ≤ c.toLower ∧ c.toLower ≤ 'f' then some (c.toLower.toNat - 'a'.toNat + 10)
  else none

/-- A client reads `%` with two hexadecimal digits as the character with this code. -/
def unescape : List Char → List Char
  | '%' :: a :: b :: rest =>
    match hexDigit? a,hexDigit? b with
    | some x, some y => .ofNat (16 * x + y) :: unescape rest
    | _, _ => '%' :: unescape (a :: b :: rest)
  | c :: rest => c :: unescape rest
  | [] => []

/-- A name, or an IPv6 address that is written in brackets. -/
inductive Host where
  | name (text : List Char)
  | address (text : List Char)

namespace Host

def text : Host → List Char
  | name text => text
  | address text => '[' :: (text ++ [']'])

def Valid : Host → Prop
  | name text => text ≠ [] ∧ ∀ c ∈ text, c ∉ ":/?#[]@".toList
  | address text => ':' ∈ text ∧ ∀ c ∈ text, c ∉ "/?#[]@".toList

/-- The host that a client connects to, in lower case. -/
def connected : Host → List Char
  | name text => (unescape text).map Char.toLower
  | address text => ('[' :: (text ++ [']'])).map Char.toLower

end Host

/-- A part that may be missing, behind its delimiter. -/
def behind (c : Char) : Option (List Char) → List Char
  | none => []
  | some part => c :: part

structure UrlParts where
  scheme : Option (List Char)
  userinfo : Option (List Char)
  host : Host
  port : Option (List Char)
  path : List Char
  query : Option (List Char)
  fragment : Option (List Char)

namespace UrlParts

def schemeText (u : UrlParts) : List Char := (u.scheme.map (· ++ "://".toList)).getD []

def userText (u : UrlParts) : List Char := (u.userinfo.map (· ++ ['@'])).getD []

def tail (u : UrlParts) : List Char := behind '?' u.query ++ behind '#' u.fragment

/-- What follows the host. -/
def after (u : UrlParts) : List Char := behind ':' u.port ++ (u.path ++ u.tail)

def rest (u : UrlParts) : List Char := u.userText ++ (u.host.text ++ u.after)

def text (u : UrlParts) : List Char := u.schemeText ++ u.rest

end UrlParts

def schemes : List (List Char) := ["http".toList,"https".toList]

/-- The parts are those of one URL: none has a character that ends it, and a text that begins with
a scheme has one. -/
structure Url extends UrlParts where
  scheme_mem : ∀ s ∈ scheme, s.map Char.toLower ∈ schemes
  schemeless : scheme = none → ∀ s tail, s.map Char.toLower ∈ schemes →
    toUrlParts.rest ≠ s ++ ("://".toList ++ tail)
  userinfo_free : ∀ info ∈ userinfo, ∀ c ∈ info, c ∉ "/?#[]@".toList
  host_valid : host.Valid
  port_digits : ∀ p ∈ port, ∀ c ∈ p, c.isDigit = true
  path_start : path = [] ∨ path.head? = some '/'
  path_free : ∀ c ∈ path, c ∉ "?#".toList
  query_free : ∀ q ∈ query, '#' ∉ q
  ascii : ∀ c ∈ toUrlParts.text, c.toNat < 128

namespace Url

/-- A text is the host. -/
def Names (u : Url) (text : List Char) : Prop := text.map Char.toLower = u.host.connected

/-- The scheme is missing or is in lower case. -/
def SchemeRead (u : Url) : Prop := ∀ s ∈ u.scheme, s ∈ schemes

/-- There is no password. -/
def UserRead (u : Url) : Prop := ∀ info ∈ u.userinfo, ':' ∉ info

/-- A port or a path stands between the host and a query or a fragment. -/
def Ends (u : Url) : Prop := u.port = none → u.path = [] → u.tail = []

def inHost (c : Char) : Bool := c != '/' && c != ':'

/-- The host is a name without escapes after which a port or a path comes before a query or a
fragment, or these name it again. -/
def HostRead (u : Url) : Prop :=
  ∃ t, u.host = .name t ∧ ((u.Ends ∧ unescape t = t) ∨
    (¬u.Ends ∧ ∃ a b, u.tail.takeWhile inHost = a ++ '@' :: b ∧ '@' ∉ b ∧ u.Names b))

/-- The scheme, the user and the host are read as such, or what is taken for the host happens to
name it. -/
def Found (u : Url) : Prop :=
  (¬u.SchemeRead ∧ ∃ s ∈ u.scheme, u.Names s) ∨
  (u.SchemeRead ∧ ¬u.UserRead ∧ ∃ info ∈ u.userinfo, u.Names (info.takeWhile (· != ':'))) ∨
  (u.SchemeRead ∧ u.UserRead ∧ u.HostRead)

end Url

/-- The lower case of ASCII is that of its characters. -/
def AsciiLower (toLowercase : String → String) : Prop :=
  ∀ s : List Char, (∀ c ∈ s, c.toNat < 128) →
    toLowercase (.ofList s) = .ofList (s.map Char.toLower)

/-! ## Cutting a text -/

variable {a b r s t text : List Char} {c d : Char} {p : Char → Bool}

theorem takeWhile_stop (ha : ∀ c ∈ a, p c = true) (hd : p d = false) :
    (a ++ d :: r).takeWhile p = a := by
  rw [List.takeWhile_append_of_pos ha,
    List.takeWhile_cons_of_neg (by rw [hd]; exact Bool.false_ne_true),List.append_nil]

/-- What follows the last of a character. -/
def lastPart (d : Char) (s : List Char) : List Char := (s.reverse.takeWhile (· != d)).reverse

theorem lastPart_of_notMem (h : d ∉ s) : lastPart d s = s := by
  rw [lastPart,List.takeWhile_eq_self_iff.mpr,List.reverse_reverse]
  intro c hc
  exact bne_iff_ne.mpr (ne_of_mem_of_not_mem (List.mem_reverse.mp hc) h)

theorem lastPart_append (h : d ∉ b) : lastPart d (a ++ d :: b) = b := by
  rw [lastPart,List.reverse_append,List.reverse_cons,List.append_assoc,List.singleton_append,
    takeWhile_stop,List.reverse_reverse]
  · intro c hc
    exact bne_iff_ne.mpr (ne_of_mem_of_not_mem (List.mem_reverse.mp hc) h)
  · exact bne_self_eq_false d

theorem exists_lastPart (h : d ∈ s) : ∃ a b, s = a ++ d :: b ∧ d ∉ b := by
  obtain ⟨b,a,hs,hb⟩ := List.eq_append_cons_of_mem (List.mem_reverse.mpr h)
  refine ⟨a.reverse,b.reverse,?_,fun h => hb (List.mem_reverse.mp h)⟩
  rw [← List.reverse_reverse s,hs,List.reverse_append,List.reverse_cons,List.append_assoc,
    List.singleton_append]

/-! ## The extraction -/

def stripped (text : List Char) : List Char :=
  ((text.dropPrefix? "https://".toList).or (text.dropPrefix? "http://".toList)).getD text

def domain (rest : List Char) : List Char := lastPart '@' (rest.takeWhile Url.inHost)

theorem stripped_eq (w : List Char) (hw : w ∈ schemes) :
    stripped (w ++ ("://".toList ++ r)) = r := by
  simp only [schemes,List.mem_cons,List.not_mem_nil,or_false] at hw
  rcases hw with rfl | rfl
  · simp [stripped,List.dropPrefix?]
  · simp [stripped,List.dropPrefix?]

theorem stripped_cases (text : List Char) :
    stripped text = text ∨ ∃ w ∈ schemes, ∃ r, text = w ++ ("://".toList ++ r) := by
  cases hs : text.dropPrefix? "https://".toList with
  | some r =>
    obtain ⟨w,hw,heq⟩ := List.dropPrefix?_eq_some_iff.mp hs
    exact Or.inr ⟨"https".toList,by simp [schemes],r,by rw [hw,eq_of_beq heq]; rfl⟩
  | none =>
    cases hp : text.dropPrefix? "http://".toList with
    | some r =>
      obtain ⟨w,hw,heq⟩ := List.dropPrefix?_eq_some_iff.mp hp
      exact Or.inr ⟨"http".toList,by simp [schemes],r,by rw [hw,eq_of_beq heq]; rfl⟩
    | none =>
      refine Or.inl ?_
      rw [stripped,hs,hp]
      rfl

theorem mem_of_mem_stripped (h : c ∈ stripped text) : c ∈ text := by
  rcases stripped_cases text with heq | ⟨w,hw,r,rfl⟩
  · rwa [heq] at h
  · rw [stripped_eq w hw] at h
    exact List.mem_append_right _ (List.mem_append_right _ h)

theorem mem_of_mem_domain (h : c ∈ domain s) : c ∈ s.takeWhile Url.inHost := by
  rw [domain,lastPart,List.mem_reverse] at h
  exact List.mem_reverse.mp ((List.takeWhile_prefix _).subset h)

theorem colon_notMem_domain : ':' ∉ domain s := by
  intro h
  have hp := List.all_eq_true.mp List.all_takeWhile _ (mem_of_mem_domain h)
  cases hp

theorem extract_eq {toLowercase : String → String} (hlower : AsciiLower toLowercase)
    (htext : ∀ c ∈ text, c.toNat < 128) :
    extractDomainFromUrl toLowercase (.ofList text) =
      if domain (stripped text) = [] then none
      else some (.ofList ((domain (stripped text)).map Char.toLower)) := by
  have hascii : ∀ c ∈ domain (stripped text), c.toNat < 128 := fun c hc =>
    htext c (mem_of_mem_stripped ((List.takeWhile_prefix _).subset (mem_of_mem_domain hc)))
  rw [← hlower _ hascii]
  have hstrip : (((stripPrefix (.ofList text) "https://").or
      (stripPrefix (.ofList text) "http://")).getD (.ofList text)).toList = stripped text := by
    rw [stripPrefix,stripPrefix,String.toList_ofList,stripped]
    cases text.dropPrefix? "https://".toList with
    | some r => exact String.toList_ofList
    | none =>
      cases text.dropPrefix? "http://".toList with
      | some r => exact String.toList_ofList
      | none => exact String.toList_ofList
  have hcut : ((stripped text).takeWhile (· != '/')).takeWhile (· != ':') =
      (stripped text).takeWhile Url.inHost := by
    rw [List.takeWhile_takeWhile]
    refine congrArg (fun p => List.takeWhile p _) (funext fun c => ?_)
    rw [Bool.eq_iff_iff]
    simp [Url.inHost,and_comm]
  simp only [extractDomainFromUrl,hstrip,hcut,domain,lastPart,List.isEmpty_iff]
  rfl

/-! ## Escapes -/

theorem length_unescape (t : List Char) :
    (unescape t).length ≤ t.length ∧ ((unescape t).length = t.length → unescape t = t) := by
  fun_induction unescape t with
  | case1 a b rest x hx y hy ih =>
    simp only [List.length_cons]
    exact ⟨by omega,fun h => by omega⟩
  | case2 a b rest h ih =>
    simp only [List.length_cons] at ih ⊢
    exact ⟨by omega,fun h => by rw [ih.2 (by omega)]⟩
  | case3 c rest h ih =>
    simp only [List.length_cons]
    exact ⟨by omega,fun h => by rw [ih.2 (by omega)]⟩
  | case4 => exact ⟨Nat.le_refl _,fun _ => rfl⟩

theorem unescape_ne_nil (h : t ≠ []) : unescape t ≠ [] := by
  fun_cases unescape t
  case case4 => exact absurd rfl h
  all_goals exact List.cons_ne_nil _ _

/-! ## The host -/

namespace Url

variable {u : Url}

theorem connected_ne_nil (u : Url) : u.host.connected ≠ [] := by
  have hvalid := u.host_valid
  cases h : u.host with
  | name t =>
    rw [h] at hvalid
    exact fun hnil => unescape_ne_nil hvalid.1 (List.map_eq_nil_iff.mp hnil)
  | address t => exact List.cons_ne_nil _ _

theorem eq_colon_of_toLower (h : c.toLower = ':') : c = ':' := by
  delta Char.toLower at h
  split at h
  · rename_i hupper
    have hval := congrArg Char.toNat h
    simp only [Char.toNat,ge_iff_le,UInt32.le_iff_toNat_le,UInt32.toNat_add] at hval hupper
    simp at hval hupper
    omega
  · exact h

theorem extract_iff {toLowercase : String → String} (hlower : AsciiLower toLowercase) (u : Url) :
    extractDomainFromUrl toLowercase (.ofList u.text) = some (.ofList u.host.connected) ↔
      u.Names (domain (stripped u.text)) := by
  rw [extract_eq hlower u.ascii,Names]
  split
  · rename_i hnil
    rw [hnil]
    exact ⟨fun h => absurd h (Option.some_ne_none _).symm,fun h => absurd h.symm u.connected_ne_nil⟩
  · rw [Option.some.injEq,String.ofList_inj]

/-- An address is not found, whatever is taken for it. -/
theorem not_names_of_address (h : u.host = .address t) (hc : ':' ∉ s) : ¬u.Names s := by
  intro hnames
  have hvalid := u.host_valid
  rw [h] at hvalid
  have hmem : ':' ∈ s.map Char.toLower := by
    rw [hnames,h]
    refine List.mem_map.mpr ⟨':',?_,rfl⟩
    exact List.mem_cons_of_mem _ (List.mem_append_left _ hvalid.1)
  obtain ⟨c,hcs,hlower⟩ := List.mem_map.mp hmem
  exact hc (eq_colon_of_toLower hlower ▸ hcs)

/-- Where a host of the URL is looked for. -/
theorem stripped_text (h : u.SchemeRead) : stripped u.text = u.rest := by
  cases hs : u.scheme with
  | none =>
    have htext : u.text = u.rest := by
      rw [UrlParts.text,UrlParts.schemeText,hs]
      rfl
    rw [htext]
    refine (stripped_cases u.rest).resolve_right ?_
    rintro ⟨w,hw,r,heq⟩
    refine u.schemeless hs w r ?_ heq
    simp only [schemes,List.mem_cons,List.not_mem_nil,or_false] at hw
    rcases hw with rfl | rfl
    · decide
    · decide
  | some s =>
    rw [UrlParts.text,UrlParts.schemeText,hs,Option.map_some,Option.getD_some,List.append_assoc]
    exact stripped_eq s (h s hs)

theorem scheme_free (h : s.map Char.toLower ∈ schemes) : ∀ c ∈ s, c ∉ ":/@".toList := by
  intro c hc hdelim
  have hmem : c.toLower ∈ s.map Char.toLower := List.mem_map.mpr ⟨c,hc,rfl⟩
  have hall : ∀ w ∈ schemes, (":/@".toList.all fun c => decide (c.toLower ∉ w)) = true := by decide
  exact of_decide_eq_true (List.all_eq_true.mp (hall _ h) c hdelim) hmem

theorem inHost_of (hslash : c ≠ '/') (hcolon : c ≠ ':') : inHost c = true := by
  rw [inHost,bne_iff_ne.mpr hslash,bne_iff_ne.mpr hcolon]
  rfl

theorem takeWhile_scheme (h : s.map Char.toLower ∈ schemes) :
    (s ++ ("://".toList ++ r)).takeWhile inHost = s := by
  refine takeWhile_stop (fun c hc => ?_) rfl
  have hfree := scheme_free h c hc
  refine inHost_of ?_ ?_
  · rintro rfl
    exact hfree (by decide)
  · rintro rfl
    exact hfree (by decide)

theorem schemes_lower : ∀ w ∈ schemes, w.map Char.toLower ∈ schemes := by
  decide

/-- A scheme that is not in lower case is taken for the host. -/
theorem domain_of_scheme (hs : s ∈ u.scheme) (h : s ∉ schemes) :
    domain (stripped u.text) = s := by
  have hmem := u.scheme_mem s hs
  have htext : u.text = s ++ ("://".toList ++ u.rest) := by
    rw [UrlParts.text,UrlParts.schemeText,hs,Option.map_some,Option.getD_some,List.append_assoc]
  have hstrip : stripped u.text = u.text := by
    refine (stripped_cases u.text).resolve_right ?_
    rintro ⟨w,hw,r,heq⟩
    have hws := congrArg (List.takeWhile inHost) (htext.symm.trans heq)
    rw [takeWhile_scheme hmem,takeWhile_scheme (schemes_lower w hw)] at hws
    exact h (hws ▸ hw)
  rw [hstrip,htext,domain,takeWhile_scheme hmem]
  refine lastPart_of_notMem fun hat => ?_
  exact scheme_free hmem _ hat (by decide)

theorem userinfo_inHost {info : List Char} (h : info ∈ u.userinfo) (hc : c ∈ info)
    (hcolon : c ≠ ':') : inHost c = true := by
  refine inHost_of ?_ hcolon
  rintro rfl
  exact u.userinfo_free info h _ hc (by decide)

/-- The user is taken for the host if a password follows. -/
theorem domain_of_userinfo {info : List Char} (h : info ∈ u.userinfo) (hcolon : ':' ∈ info) :
    domain u.rest = info.takeWhile (· != ':') := by
  obtain ⟨user,word,rfl,huser⟩ := List.eq_append_cons_of_mem hcolon
  have hrest : u.rest = user ++ ':' :: (word ++ '@' :: (u.host.text ++ u.after)) := by
    rw [UrlParts.rest,UrlParts.userText,h]
    simp
  have hne : ∀ c ∈ user, c ≠ ':' := fun c hc => ne_of_mem_of_not_mem hc huser
  rw [domain,hrest,takeWhile_stop (fun c hc => bne_iff_ne.mpr (hne c hc)) (bne_self_eq_false ':'),
    takeWhile_stop (fun c hc => userinfo_inHost h (List.mem_append_left _ hc) (hne c hc)) rfl]
  refine lastPart_of_notMem fun hat => ?_
  exact u.userinfo_free _ h _ (List.mem_append_left _ hat) (by decide)

theorem userText_inHost (h : u.UserRead) : ∀ c ∈ u.userText, inHost c = true := by
  intro c hc
  rw [UrlParts.userText] at hc
  cases hinfo : u.userinfo with
  | none =>
    rw [hinfo] at hc
    cases hc
  | some info =>
    rw [hinfo,Option.map_some,Option.getD_some,List.mem_append,List.mem_singleton] at hc
    rcases hc with hc | rfl
    · exact userinfo_inHost hinfo hc (ne_of_mem_of_not_mem hc (h info hinfo))
    · rfl

theorem lastPart_userText (hs : '@' ∉ s) : lastPart '@' (u.userText ++ s) = s := by
  rw [UrlParts.userText]
  cases u.userinfo with
  | none => exact lastPart_of_notMem hs
  | some info =>
    rw [Option.map_some,Option.getD_some,List.append_assoc]
    exact lastPart_append hs

theorem name_free {t : List Char} (h : u.host = .name t) :
    (∀ c ∈ t, inHost c = true) ∧ '@' ∉ t := by
  have hvalid := u.host_valid
  rw [h] at hvalid
  refine ⟨fun c hc => inHost_of ?_ ?_,fun hat => hvalid.2 _ hat (by decide)⟩
  · rintro rfl
    exact hvalid.2 _ hc (by decide)
  · rintro rfl
    exact hvalid.2 _ hc (by decide)

/-- The host is read together with what follows it up to a slash or a colon. -/
theorem takeWhile_rest {t : List Char} (hu : u.UserRead) (h : u.host = .name t) :
    u.rest.takeWhile inHost = u.userText ++ (t ++ u.after.takeWhile inHost) := by
  rw [UrlParts.rest,h,List.takeWhile_append_of_pos (userText_inHost hu),Host.text,
    List.takeWhile_append_of_pos (name_free h).1]

theorem after_of_ends (h : u.Ends) : u.after.takeWhile inHost = [] := by
  rw [UrlParts.after]
  cases hport : u.port with
  | some p => rfl
  | none =>
    rcases u.path_start with hpath | hpath
    · rw [hpath,h hport hpath]
      rfl
    · obtain ⟨path,hpath⟩ := List.head?_eq_some_iff.mp hpath
      rw [hpath]
      rfl

theorem after_of_not_ends (h : ¬u.Ends) : u.after = u.tail ∧ u.tail.takeWhile inHost ≠ [] := by
  simp only [Ends,Classical.not_imp] at h
  obtain ⟨hport,hpath,htail⟩ := h
  refine ⟨by rw [UrlParts.after,hport,hpath]; rfl,?_⟩
  rw [UrlParts.tail] at htail ⊢
  cases hquery : u.query with
  | some q => exact List.cons_ne_nil _ _
  | none =>
    rw [hquery] at htail
    cases hfragment : u.fragment with
    | some f => exact List.cons_ne_nil _ _
    | none =>
      rw [hfragment] at htail
      exact absurd rfl htail

/-- A name with something behind it is longer than the host. -/
theorem not_names_longer {t : List Char} (h : u.host = .name t) (hs : s ≠ []) :
    ¬u.Names (t ++ s) := by
  intro hnames
  have hlen := congrArg List.length hnames
  rw [h,Host.connected,List.length_map,List.length_map,List.length_append] at hlen
  have hle := (length_unescape t).1
  have hpos := List.length_pos_iff.mpr hs
  omega

theorem names_name {t : List Char} (h : u.host = .name t) : u.Names t ↔ unescape t = t := by
  rw [Names,h,Host.connected]
  constructor
  · intro heq
    have hlen := congrArg List.length heq
    rw [List.length_map,List.length_map] at hlen
    exact (length_unescape t).2 hlen.symm
  · intro heq
    rw [heq]

theorem names_rest (hu : u.UserRead) : u.Names (domain u.rest) ↔ u.HostRead := by
  cases h : u.host with
  | address t =>
    refine ⟨fun hnames => absurd hnames (not_names_of_address h colon_notMem_domain),?_⟩
    rintro ⟨t',ht,-⟩
    rw [h] at ht
    cases ht
  | name t =>
    have hiff : u.HostRead ↔ (u.Ends ∧ unescape t = t) ∨
        (¬u.Ends ∧ ∃ a b, u.tail.takeWhile inHost = a ++ '@' :: b ∧ '@' ∉ b ∧ u.Names b) := by
      refine ⟨?_,fun hread => ⟨t,h,hread⟩⟩
      rintro ⟨t',ht,hread⟩
      rw [h] at ht
      cases ht
      exact hread
    rw [hiff,domain,takeWhile_rest hu h]
    have hat := (name_free h).2
    by_cases hends : u.Ends
    · rw [after_of_ends hends,List.append_nil,lastPart_userText hat,names_name h]
      exact ⟨fun heq => Or.inl ⟨hends,heq⟩,
        fun hread => (hread.resolve_right fun hn => hn.1 hends).2⟩
    · obtain ⟨hafter,hne⟩ := after_of_not_ends hends
      rw [hafter]
      generalize u.tail.takeWhile inHost = run at hne ⊢
      by_cases hrun : '@' ∈ run
      · obtain ⟨a,b,rfl,hb⟩ := exists_lastPart hrun
        rw [← List.append_assoc,← List.append_assoc,lastPart_append hb]
        constructor
        · exact fun hnames => Or.inr ⟨hends,a,b,rfl,hb,hnames⟩
        · rintro (⟨hyes,-⟩ | ⟨-,a',b',heq,hb',hnames⟩)
          · exact absurd hyes hends
          · have hlast := congrArg (lastPart '@') heq
            rw [lastPart_append hb,lastPart_append hb'] at hlast
            rwa [hlast]
      · rw [lastPart_userText (by rw [List.mem_append,not_or]; exact ⟨hat,hrun⟩)]
        refine ⟨fun hnames => absurd hnames (not_names_longer h hne),?_⟩
        rintro (⟨hyes,-⟩ | ⟨-,a,b,rfl,-,-⟩)
        · exact absurd hyes hends
        · exact absurd (List.mem_append_right _ List.mem_cons_self) hrun

/-- What is extracted is the host that a client connects to exactly if scheme, user and host are
read as such, or what is taken for the host happens to name it. -/
theorem extract_iff_found {toLowercase : String → String} (hlower : AsciiLower toLowercase)
    (u : Url) :
    extractDomainFromUrl toLowercase (.ofList u.text) = some (.ofList u.host.connected) ↔
      u.Found := by
  rw [extract_iff hlower,Found]
  by_cases hs : u.SchemeRead
  · rw [stripped_text hs]
    by_cases hu : u.UserRead
    · rw [names_rest hu]
      simp only [hs,hu,true_and,not_true_eq_false,false_and,false_or]
    · obtain ⟨info,hinfo,hcolon⟩ : ∃ info ∈ u.userinfo, ':' ∈ info := by
        simpa only [UserRead,not_forall,exists_prop,not_not] using hu
      rw [domain_of_userinfo hinfo hcolon]
      constructor
      · exact fun hnames => Or.inr (Or.inl ⟨hs,hu,info,hinfo,hnames⟩)
      · rintro (⟨hno,-⟩ | ⟨-,-,info',hinfo',hnames⟩ | ⟨-,hyes,-⟩)
        · exact absurd hs hno
        · rwa [Option.mem_unique hinfo hinfo']
        · exact absurd hyes hu
  · obtain ⟨scheme,hscheme,hno⟩ : ∃ scheme ∈ u.scheme, scheme ∉ schemes := by
      simpa only [SchemeRead,not_forall,exists_prop] using hs
    rw [domain_of_scheme hscheme hno]
    constructor
    · exact fun hnames => Or.inl ⟨hs,scheme,hscheme,hnames⟩
    · rintro (⟨-,scheme',hscheme',hnames⟩ | ⟨hyes,-⟩ | ⟨hyes,-⟩)
      · rwa [Option.mem_unique hscheme hscheme']
      · exact absurd hyes hs
      · exact absurd hyes hs

def asciiLower (s : String) : String := .ofList (s.toList.map Char.toLower)

theorem asciiLower_ok : AsciiLower asciiLower := by
  intro s _
  rw [asciiLower,String.toList_ofList]

def plainUrl : Url where
  scheme := some "https".toList
  userinfo := some "user".toList
  host := .name "Example.com".toList
  port := some "80".toList
  path := "/a".toList
  query := none
  fragment := none
  scheme_mem := by decide
  schemeless := by simp
  userinfo_free := by
    rintro _ ⟨⟩
    exact forall_mem_of_all (by decide)
  host_valid := ⟨by decide,forall_mem_of_all (by decide)⟩
  port_digits := by
    rintro _ ⟨⟩
    exact forall_mem_of_all (by decide)
  path_start := by decide
  path_free := forall_mem_of_all (by decide)
  query_free := by simp
  ascii := forall_mem_of_all (by decide)

theorem plainUrl_found : AsciiLower asciiLower ∧
    (extractDomainFromUrl asciiLower (.ofList plainUrl.text) =
      some (.ofList plainUrl.host.connected) ↔ plainUrl.Found) :=
  ⟨asciiLower_ok,extract_iff_found asciiLower_ok plainUrl⟩

def passwordUrl : Url where
  scheme := some "https".toList
  userinfo := some "good.com:pw".toList
  host := .name "evil.com".toList
  port := none
  path := "/".toList
  query := none
  fragment := none
  scheme_mem := by decide
  schemeless := by simp
  userinfo_free := by
    rintro _ ⟨⟩
    exact forall_mem_of_all (by decide)
  host_valid := ⟨by decide,forall_mem_of_all (by decide)⟩
  port_digits := by simp
  path_start := by decide
  path_free := forall_mem_of_all (by decide)
  query_free := by simp
  ascii := forall_mem_of_all (by decide)

/-- A request to one host is judged as one to the user's name. -/
theorem password_misread :
    extractDomainFromUrl asciiLower (.ofList passwordUrl.text) = some "good.com" ∧
      extractDomainFromUrl asciiLower (.ofList passwordUrl.text) ≠
        some (.ofList passwordUrl.host.connected) := by
  constructor
  · decide +kernel
  · decide +kernel

end Url

end Rullama.Tools
