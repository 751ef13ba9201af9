import Precedence.Proofs.Operations

/-! What the tokens of a source are, told by its text alone. They stand one behind the other with
blanks around them, and each of them is the longest one of its class. Only one list of tokens is
like that, and scanning finds it. -/
namespace Precedence
open Text

namespace Kind

/-- Characters that are a token by themselves and start no longer one. -/
def singles : List (Char × Kind) :=
  [('+',plus),('-',minus),('*',star),('/',slash),('<',less),('>',greater),(',',comma),
    (';',semicolon),('(',openParen),(')',closeParen),('\x7b',openBrace),('\x7d',closeBrace)]

/-- Words that have a kind of their own. -/
def keywords : List (List Char × Kind) :=
  [(['f','n'],fnWord),(['l','e','t'],letWord),(['r','e','t','u','r','n'],returnWord),
    (['t','r','u','e'],trueWord),(['f','a','l','s','e'],falseWord),(['i','f'],ifWord),
    (['e','l','s','e'],elseWord)]

/-- What a token of a kind looks like, and what stands behind it. A word or a number goes on as
far as it can, and no equals sign is left behind where it makes a symbol of two characters. -/
inductive Longest : Kind → List Char → List Char → Prop where
  | keyword {k : Kind} {cs behind : List Char} (h : (cs,k) ∈ keywords)
      (hb : ∀ d ∈ behind.head?, isWordPart d = false) : Longest k cs behind
  | identifier {c : Char} {cs behind : List Char} (hc : isWordStart c = true)
      (hcs : ∀ d ∈ cs, isWordPart d = true) (h : c :: cs ∉ keywords.map Prod.fst)
      (hb : ∀ d ∈ behind.head?, isWordPart d = false) : Longest identifier (c :: cs) behind
  | integer {c : Char} {cs behind : List Char} (hc : c.isDigit = true)
      (hcs : ∀ d ∈ cs, d.isDigit = true) (hb : ∀ d ∈ behind.head?, d.isDigit = false) :
      Longest integer (c :: cs) behind
  | equal {behind : List Char} : Longest equal ['=','='] behind
  | notEqual {behind : List Char} : Longest notEqual ['!','='] behind
  | assign {behind : List Char} (hb : behind.head? ≠ some '=') : Longest assign ['='] behind
  | bang {behind : List Char} (hb : behind.head? ≠ some '=') : Longest bang ['!'] behind
  | single {c : Char} {k : Kind} {behind : List Char} (h : (c,k) ∈ singles) :
      Longest k [c] behind
  | illegal {c : Char} {behind : List Char} (hb : isBlank c = false) (hw : isWordStart c = false)
      (hd : c.isDigit = false) (hs : c ∉ singles.map Prod.fst) (he : c ≠ '=') (hx : c ≠ '!') :
      Longest illegal [c] behind

theorem reserved_eq : reserved = keywords.map fun q => (String.ofList q.1,q.2) := by decide

theorem ofWord_keywords {k : Kind} {cs : List Char} (h : (cs,k) ∈ keywords) :
    ofWord (String.ofList cs) = k ∧
      ∃ d ds, cs = d :: ds ∧ isWordStart d = true ∧ ds.all isWordPart = true := by
  simp only [keywords,List.mem_cons,Prod.mk.injEq,List.not_mem_nil,or_false] at h
  rcases h with ⟨rfl,rfl⟩ | ⟨rfl,rfl⟩ | ⟨rfl,rfl⟩ | ⟨rfl,rfl⟩ | ⟨rfl,rfl⟩ | ⟨rfl,rfl⟩ | ⟨rfl,rfl⟩
  all_goals exact ⟨by decide,_,_,rfl,by decide,by decide⟩

theorem ofWord_cases (cs : List Char) : (cs,ofWord (String.ofList cs)) ∈ keywords ∨
    cs ∉ keywords.map Prod.fst ∧ ofWord (String.ofList cs) = identifier := by
  by_cases h : cs ∈ keywords.map Prod.fst
  · left
    obtain ⟨⟨ds,k⟩,hk,rfl⟩ := List.mem_map.mp h
    rwa [(ofWord_keywords hk).1]
  · right
    have hnone : reserved.lookup (String.ofList cs) = none := by
      rw [reserved_eq,List.lookup_eq_none_iff]
      intro q hq
      obtain ⟨r,hr,rfl⟩ := List.mem_map.mp hq
      refine bne_iff_ne.mpr fun he => h ?_
      rw [String.ofList_injective he]
      exact List.mem_map_of_mem hr
    exact ⟨h,by rw [ofWord,hnone]; rfl⟩

theorem Longest.word {c : Char} {cs behind : List Char} (hc : isWordStart c = true)
    (hcs : ∀ d ∈ cs, isWordPart d = true) (hb : ∀ d ∈ behind.head?, isWordPart d = false) :
    Longest (ofWord (String.ofList (c :: cs))) (c :: cs) behind := by
  rcases ofWord_cases (c :: cs) with h | ⟨h,hi⟩
  · exact .keyword h hb
  · rw [hi]
    exact .identifier hc hcs h hb

theorem ofSymbol_singles {c : Char} {k : Kind} (h : (c,k) ∈ singles) :
    ofSymbol c = k ∧ isBlank c = false ∧ isWordStart c = false ∧ c.isDigit = false ∧
      c ≠ '=' ∧ c ≠ '!' := by
  simp only [singles,List.mem_cons,Prod.mk.injEq,List.not_mem_nil,or_false] at h
  rcases h with ⟨rfl,rfl⟩ | ⟨rfl,rfl⟩ | ⟨rfl,rfl⟩ | ⟨rfl,rfl⟩ | ⟨rfl,rfl⟩ | ⟨rfl,rfl⟩ | ⟨rfl,rfl⟩ |
    ⟨rfl,rfl⟩ | ⟨rfl,rfl⟩ | ⟨rfl,rfl⟩ | ⟨rfl,rfl⟩ | ⟨rfl,rfl⟩ <;> decide

theorem ofSymbol_cases (c : Char) :
    (c,ofSymbol c) ∈ singles ∨ c = '=' ∨ c = '!' ∨
      c ∉ singles.map Prod.fst ∧ c ≠ '=' ∧ c ≠ '!' ∧ ofSymbol c = illegal := by
  unfold ofSymbol
  split
  case h_15 => simp_all [singles]
  all_goals decide

end Kind

theorem symbolAt_of_ne {c : Char} {cs : List Char} (he : c ≠ '=') (hx : c ≠ '!') :
    symbolAt c cs = ⟨.ofSymbol c,[c],cs⟩ := by
  unfold symbolAt
  split
  · exact absurd rfl he
  · exact absurd rfl hx
  · rfl

theorem symbolAt_of_head {c : Char} {cs : List Char} (h : cs.head? ≠ some '=') :
    symbolAt c cs = ⟨.ofSymbol c,[c],cs⟩ := by
  unfold symbolAt
  split
  · simp at h
  · simp at h
  · rfl

theorem lexemeAt_longest {c : Char} (cs : List Char) (hc : isBlank c = false) :
    (lexemeAt c cs).kind.Longest (lexemeAt c cs).text (lexemeAt c cs).rest := by
  have hrun (p : Char → Bool) : (∀ d ∈ cs.takeWhile p, p d = true) ∧
      ∀ d ∈ (cs.dropWhile p).head?, p d = false := by
    refine ⟨List.all_eq_true.mp List.all_takeWhile,fun d hd => ?_⟩
    have h := List.head?_dropWhile_not p cs
    rw [Option.mem_def.mp hd] at h
    simpa using h
  unfold lexemeAt
  by_cases hw : isWordStart c = true
  · rw [if_pos hw]
    exact .word hw (hrun _).1 (hrun _).2
  rw [if_neg hw]
  by_cases hd : c.isDigit = true
  · rw [if_pos hd]
    exact .integer hd (hrun _).1 (hrun _).2
  rw [if_neg hd]
  rcases Kind.ofSymbol_cases c with h | rfl | rfl | ⟨hs,he,hx,hk⟩
  · obtain ⟨-,-,-,-,he,hx⟩ := Kind.ofSymbol_singles h
    rw [symbolAt_of_ne he hx]
    exact .single h
  · by_cases h : cs.head? = some '='
    · obtain ⟨ds,rfl⟩ := List.head?_eq_some_iff.mp h
      exact .equal
    · rw [symbolAt_of_head h]
      exact .assign h
  · by_cases h : cs.head? = some '='
    · obtain ⟨ds,rfl⟩ := List.head?_eq_some_iff.mp h
      exact .notEqual
    · rw [symbolAt_of_head h]
      exact .bang h
  · rw [symbolAt_of_ne he hx]
    simpa only [hk] using Kind.Longest.illegal hc (by simpa using hw) (by simpa using hd) hs he hx

namespace Kind.Longest
variable {k : Kind} {text behind : List Char}

theorem head (h : k.Longest text behind) : ∃ c cs, text = c :: cs ∧ isBlank c = false := by
  cases h with
  | keyword h =>
    obtain ⟨-,d,ds,rfl,hd,-⟩ := ofWord_keywords h
    exact ⟨d,ds,rfl,isBlank_of_isWordStart hd⟩
  | identifier hc => exact ⟨_,_,rfl,isBlank_of_isWordStart hc⟩
  | integer hc => exact ⟨_,_,rfl,isBlank_of_isDigit hc⟩
  | equal | notEqual | assign | bang => exact ⟨_,_,rfl,by decide⟩
  | single hs => exact ⟨_,_,rfl,(ofSymbol_singles hs).2.1⟩
  | illegal hb => exact ⟨_,_,rfl,hb⟩

theorem lexemeAt {c : Char} {cs : List Char} (h : k.Longest (c :: cs) behind) :
    lexemeAt c (cs ++ behind) = ⟨k,c :: cs,behind⟩ := by
  unfold Precedence.lexemeAt
  generalize ht : c :: cs = text at h
  cases h with
  | keyword h hb =>
    obtain ⟨hk,d,ds,rfl,hd,hds⟩ := ofWord_keywords h
    obtain ⟨rfl,rfl⟩ := List.cons.inj ht
    obtain ⟨hl,hr⟩ := takeWhile_append_exact (List.all_eq_true.mp hds) hb
    rw [if_pos hd,hl,hr,hk]
  | identifier hc hcs h hb =>
    obtain ⟨rfl,rfl⟩ := List.cons.inj ht
    obtain ⟨hl,hr⟩ := takeWhile_append_exact hcs hb
    have hk := ((ofWord_cases (c :: cs)).resolve_left fun hm => h (List.mem_map_of_mem hm)).2
    rw [if_pos hc,hl,hr,hk]
  | integer hc hcs hb =>
    obtain ⟨rfl,rfl⟩ := List.cons.inj ht
    obtain ⟨hl,hr⟩ := takeWhile_append_exact hcs hb
    rw [if_neg (by simp [isWordStart_of_isDigit hc]),if_pos hc,hl,hr]
  | equal | notEqual =>
    obtain ⟨rfl,rfl⟩ := List.cons.inj ht
    rfl
  | assign hb | bang hb =>
    obtain ⟨rfl,rfl⟩ := List.cons.inj ht
    exact symbolAt_of_head hb
  | single hs =>
    obtain ⟨rfl,rfl⟩ := List.cons.inj ht
    obtain ⟨hk,-,hw,hd,he,hx⟩ := ofSymbol_singles hs
    rw [if_neg (by simp [hw]),if_neg (by simp [hd]),symbolAt_of_ne he hx,hk]
    rfl
  | illegal hb hw hd hs he hx =>
    obtain ⟨rfl,rfl⟩ := List.cons.inj ht
    have hk : ofSymbol c = .illegal := by
      rcases ofSymbol_cases c with h | h | h | ⟨-,-,-,h⟩
      · exact absurd (List.mem_map_of_mem (f := Prod.fst) h) hs
      · exact absurd h he
      · exact absurd h hx
      · exact h
    rw [if_neg (by simp [hw]),if_neg (by simp [hd]),symbolAt_of_ne he hx,hk]
    rfl

end Kind.Longest

/-- What stands in front of a byte is a beginning of what stands in front of a later one. -/
theorem Text.split_of_bytes_le {xs ys zs ws : List Char} (h : xs ++ ys = zs ++ ws)
    (hb : bytes xs ≤ bytes zs) : ∃ ms, zs = xs ++ ms ∧ ys = ms ++ ws := by
  rcases List.append_eq_append_iff.mp h with ⟨ms,hz,hy⟩ | ⟨ms,hx,hw⟩
  · exact ⟨ms,hz,hy⟩
  · have hms : ms = [] := by
      by_contra hne
      have hpos := bytes_pos hne
      rw [hx,bytes_append] at hb
      omega
    subst hms
    exact ⟨[],by simpa using hx.symm,by simpa using hw.symm⟩

/-- A token is the text at the place that its span names, with text before and behind it. -/
structure Token.Stands (t : Token) (s : Scanner) (before behind : List Char) : Prop where
  text : s.rest = before ++ (t.text.toList ++ behind)
  file : t.span.file = s.file
  start : t.span.start.toNat = s.offset+bytes before
  stop : t.span.stop.toNat = s.offset+bytes before+bytes t.text.toList

theorem Token.Stands.eq {t u : Token} {s : Scanner} {before behind behind' : List Char}
    (ht : t.Stands s before behind) (hu : u.Stands s before behind') (hk : t.kind = u.kind)
    (hx : t.text = u.text) : t = u := by
  have hfile := ht.file.trans hu.file.symm
  have hstart := UInt32.toNat_inj.mp (ht.start.trans hu.start.symm)
  have hstop := UInt32.toNat_inj.mp (ht.stop.trans (hx ▸ hu.stop.symm))
  obtain ⟨k,x,file,start,stop⟩ := t
  obtain ⟨k',x',file',start',stop'⟩ := u
  simp_all

def Token.Covers (t : Token) (n : Nat) : Prop := t.span.start.toNat ≤ n ∧ n < t.span.stop.toNat

namespace Scanner

/-- The tokens to come are told by the text to come: they stand one behind the other, each is the
longest of its class, and there is nothing but blanks besides. -/
structure Cut (s : Scanner) (ws : List Token) : Prop where
  ordered : ws.Pairwise fun t u => t.span.stop ≤ u.span.start
  longest : ∀ t ∈ ws, ∃ before behind,
    t.Stands s before behind ∧ t.kind.Longest t.text.toList behind
  blanks : ∀ before c behind, s.rest = before ++ c :: behind →
    (∀ t ∈ ws, ¬ t.Covers (s.offset+bytes before)) → isBlank c = true

variable {s : Scanner} {c : Char} {cs : List Char} {t : Token} {ws : List Token}

theorem cut_of_blanks (h : s.rest.dropWhile isBlank = []) : s.Cut ws ↔ ws = [] := by
  have hall := @all_of_takeWhile isBlank s.rest (by
    simpa [h] using @List.takeWhile_append_dropWhile _ isBlank s.rest)
  constructor
  · intro hcut
    cases ws with
    | nil => rfl
    | cons t ws =>
      obtain ⟨before,behind,hs,hl⟩ := hcut.longest t (by simp)
      obtain ⟨d,ds,hd,hblank⟩ := hl.head
      have hmem : d ∈ s.rest := by simp [hs.text,hd]
      simp [hall d hmem] at hblank
  · rintro rfl
    refine ⟨.nil,by simp,fun before d behind hd _ => hall d (by simp [hd])⟩

/-- What the first token uses up of a text: the blanks in front of it and its own text. -/
def front (s : Scanner) (c : Char) (cs : List Char) : List Char :=
  s.rest.takeWhile isBlank ++ (lexemeAt c cs).text

theorem behind_offset (s : Scanner) (c : Char) (cs : List Char) :
    (s.behind c cs).offset = s.offset+bytes (s.front c cs) := by
  rw [front,bytes_append,← Nat.add_assoc]
  rfl

section Lexeme
variable (h : s.rest.dropWhile isBlank = c :: cs)
include h

theorem front_append : s.rest = s.front c cs ++ (s.behind c cs).rest := by
  have hl : (lexemeAt c cs).text ++ (s.behind c cs).rest = c :: cs := lexemeAt_append c cs
  rw [front,List.append_assoc,hl,← h,List.takeWhile_append_dropWhile]

theorem not_blank_of_lexeme : isBlank c = false := by
  have hd := List.head?_dropWhile_not isBlank s.rest
  rw [h] at hd
  simpa using hd

theorem stands_behind_iff {before behind : List Char} :
    t.Stands (s.behind c cs) before behind ↔ t.Stands s (s.front c cs ++ before) behind := by
  have htext : (s.behind c cs).rest = before ++ (t.text.toList ++ behind) ↔
      s.rest = s.front c cs ++ before ++ (t.text.toList ++ behind) := by
    rw [List.append_assoc]
    constructor
    · intro hr
      rw [← hr,← front_append h]
    · intro hr
      exact List.append_cancel_left ((front_append h).symm.trans hr)
  have hwhere : (s.behind c cs).offset+bytes before = s.offset+bytes (s.front c cs ++ before) := by
    rw [behind_offset,bytes_append,Nat.add_assoc]
  constructor
  · intro hs
    exact ⟨htext.mp hs.text,hs.file,hwhere ▸ hs.start,hwhere ▸ hs.stop⟩
  · intro hs
    exact ⟨htext.mpr hs.text,hs.file,hwhere ▸ hs.start,hwhere ▸ hs.stop⟩

variable (hb : s.offset+bytes s.rest < 2^32)
include hb

theorem tokenHere_stands :
    (s.skipBlanks.tokenHere (lexemeAt c cs).kind (lexemeAt c cs).text).Stands s
      (s.rest.takeWhile isBlank) (s.behind c cs).rest := by
  have hrest := front_append h
  rw [front,List.append_assoc] at hrest
  have hbytes := congrArg bytes hrest
  simp only [bytes_append] at hbytes
  refine ⟨?_,rfl,?_,?_⟩
  · simpa [tokenHere] using hrest
  · simp only [tokenHere,skipBlanks,Nat.toUInt32_eq,UInt32.toNat_ofNat']
    omega
  · simp only [tokenHere,skipBlanks,Nat.toUInt32_eq,UInt32.toNat_ofNat',String.toList_ofList]
    omega

theorem tokenHere_stop :
    (s.skipBlanks.tokenHere (lexemeAt c cs).kind (lexemeAt c cs).text).span.stop.toNat =
      (s.behind c cs).offset := by
  have hs := (tokenHere_stands h hb).stop
  rw [hs,behind_offset,front,bytes_append,← Nat.add_assoc]
  simp [tokenHere]

theorem cut_cons (hcut : (s.behind c cs).Cut ws) :
    s.Cut (s.skipBlanks.tokenHere (lexemeAt c cs).kind (lexemeAt c cs).text :: ws) := by
  have hstop := tokenHere_stop h hb
  have hstands := tokenHere_stands h hb
  refine ⟨List.pairwise_cons.mpr ⟨fun u hu => ?_,hcut.ordered⟩,fun u hu => ?_,?_⟩
  · obtain ⟨before,behind,hs,-⟩ := hcut.longest u hu
    rw [UInt32.le_iff_toNat_le,hstop,hs.start]
    exact Nat.le_add_right _ _
  · rcases List.mem_cons.mp hu with rfl | hu
    · refine ⟨_,_,hstands,?_⟩
      simpa [tokenHere,behind] using lexemeAt_longest cs (not_blank_of_lexeme h)
    · obtain ⟨before,behind,hs,hl⟩ := hcut.longest u hu
      exact ⟨_,_,(stands_behind_iff h).mp hs,hl⟩
  · intro before d behind hd hcovers
    have hfirst := hcovers _ List.mem_cons_self
    simp only [Token.Covers,hstop,hstands.start,behind_offset] at hfirst
    rcases Nat.lt_or_ge (bytes before) (bytes (s.rest.takeWhile isBlank)) with hlt | hge
    · -- In front of the first token there are its blanks.
      obtain ⟨ms,hms,hds⟩ := split_of_bytes_le (hd.symm.trans hstands.text) (Nat.le_of_lt hlt)
      have hne : ms ≠ [] := by
        rintro rfl
        rw [hms,List.append_nil] at hlt
        exact Nat.lt_irrefl _ hlt
      obtain ⟨m,ms,rfl⟩ := List.exists_cons_of_ne_nil hne
      obtain ⟨rfl,-⟩ := List.cons.inj hds
      refine List.all_eq_true.mp (@List.all_takeWhile _ isBlank s.rest) d ?_
      rw [hms]
      simp
    · have hle : bytes (s.front c cs) ≤ bytes before := by omega
      obtain ⟨ms,rfl,hr⟩ := split_of_bytes_le ((front_append h).symm.trans hd) hle
      refine hcut.blanks ms d behind hr fun u hu => ?_
      have hu := hcovers u (List.mem_cons_of_mem _ hu)
      rwa [bytes_append,← Nat.add_assoc,← behind_offset] at hu

omit hb in
/-- Nothing but blanks is in front of the first token of such a list, and all of them are. -/
theorem first_stands (hcut : s.Cut (t :: ws)) : ∃ behind,
    t.Stands s (s.rest.takeWhile isBlank) behind ∧ t.kind.Longest t.text.toList behind := by
  have hblank := not_blank_of_lexeme h
  have hrest : s.rest = s.rest.takeWhile isBlank ++ c :: cs := by
    rw [← h,List.takeWhile_append_dropWhile]
  have hlater := (List.pairwise_cons.mp hcut.ordered).1
  obtain ⟨before,behind,hs,hl⟩ := hcut.longest t List.mem_cons_self
  obtain ⟨d,ds,hd,hdb⟩ := hl.head
  have hle : bytes before ≤ bytes (s.rest.takeWhile isBlank) := by
    -- If it stood further behind, no token would have the first character that is no blank.
    by_contra hlt
    have hstart := hs.start
    have hstop := hs.stop
    have hc := hcut.blanks _ c cs hrest fun u hu hcovers => by
      have hu' : t.span.start.toNat ≤ u.span.start.toNat := by
        rcases List.mem_cons.mp hu with rfl | hu
        · exact Nat.le_refl _
        · have hle := UInt32.le_iff_toNat_le.mp (hlater u hu)
          omega
      have hc := hcovers.1
      omega
    simp [hc] at hblank
  obtain ⟨ms,hms,hds⟩ := split_of_bytes_le (hs.text.symm.trans hrest) hle
  have hnil : ms = [] := by
    cases ms with
    | nil => rfl
    | cons m ms =>
      rw [hd] at hds
      obtain ⟨rfl,-⟩ := List.cons.inj hds
      have hm := List.all_eq_true.mp (@List.all_takeWhile _ isBlank s.rest) d (by simp [hms])
      simp [hm] at hdb
  rw [hms,hnil,List.append_nil]
  exact ⟨behind,hs,hl⟩

theorem first_eq (hcut : s.Cut (t :: ws)) :
    t = s.skipBlanks.tokenHere (lexemeAt c cs).kind (lexemeAt c cs).text := by
  obtain ⟨behind,hs,hl⟩ := first_stands h hcut
  have hrest : s.rest.takeWhile isBlank ++ c :: cs =
      s.rest.takeWhile isBlank ++ (t.text.toList ++ behind) := by
    rw [← hs.text,← h,List.takeWhile_append_dropWhile]
  have hcs := List.append_cancel_left hrest
  obtain ⟨d,ds,hd,-⟩ := hl.head
  rw [hd] at hcs hl
  rw [List.cons_append] at hcs
  obtain ⟨rfl,rfl⟩ := List.cons.inj hcs
  have hlex := hl.lexemeAt
  refine hs.eq (tokenHere_stands h hb) (by rw [hlex]; rfl) ?_
  rw [hlex,← hd]
  simp [tokenHere]

theorem cut_behind
    (hcut : s.Cut (s.skipBlanks.tokenHere (lexemeAt c cs).kind (lexemeAt c cs).text :: ws)) :
    (s.behind c cs).Cut ws := by
  have hstop := tokenHere_stop h hb
  obtain ⟨hlater,hordered⟩ := List.pairwise_cons.mp hcut.ordered
  refine ⟨hordered,fun u hu => ?_,fun before d behind hd hcovers => ?_⟩
  · obtain ⟨before,behind,hs,hl⟩ := hcut.longest u (List.mem_cons_of_mem _ hu)
    have hle := UInt32.le_iff_toNat_le.mp (hlater u hu)
    rw [hstop,hs.start,behind_offset] at hle
    obtain ⟨ms,rfl,-⟩ :=
      split_of_bytes_le ((front_append h).symm.trans hs.text) (Nat.le_of_add_le_add_left hle)
    exact ⟨ms,behind,(stands_behind_iff h).mpr hs,hl⟩
  · refine hcut.blanks (s.front c cs ++ before) d behind ?_ fun u hu hc => ?_
    · rw [List.append_assoc,← hd,← front_append h]
    · rw [bytes_append,← Nat.add_assoc,← behind_offset] at hc
      rcases List.mem_cons.mp hu with rfl | hu
      · have hlt := hc.2
        rw [hstop] at hlt
        omega
      · exact hcovers u hu hc

/-- Such a list has the first token that scanning finds, and goes on behind it. -/
theorem cut_of_lexeme : s.Cut ws ↔ ∃ ws',
    ws = s.skipBlanks.tokenHere (lexemeAt c cs).kind (lexemeAt c cs).text :: ws' ∧
      (s.behind c cs).Cut ws' := by
  constructor
  · intro hcut
    cases ws with
    | nil =>
      have hrest : s.rest = s.rest.takeWhile isBlank ++ c :: cs := by
        rw [← h,List.takeWhile_append_dropWhile]
      have hc := hcut.blanks _ c cs hrest (by simp)
      simp [not_blank_of_lexeme h] at hc
    | cons t ws =>
      obtain rfl := first_eq h hb hcut
      exact ⟨ws,rfl,cut_behind h hb hcut⟩
  · rintro ⟨ws,rfl,hcut⟩
    exact cut_cons h hb hcut

end Lexeme

/-- The tokens to come are the only list that the text to come tells. -/
theorem cut_iff (s : Scanner) (hb : s.offset+bytes s.rest < 2^32) (ws : List Token) :
    s.Cut ws ↔ ws = s.ahead := by
  induction s using scan_induction generalizing ws with
  | blanks s h => rw [cut_of_blanks h,ahead_of_blanks h]
  | lexeme s c cs h ih =>
    have hbehind := bytes_behind h
    rw [cut_of_lexeme h hb,ahead_of_lexeme h]
    constructor
    · rintro ⟨ws,rfl,hcut⟩
      rw [(ih (by omega) ws).mp hcut]
    · rintro rfl
      exact ⟨_,rfl,(ih (by omega) _).mpr rfl⟩

end Scanner

/-- The end token of a source: an empty text behind its last byte. -/
def Source.ending (source : Source) : Token :=
  ⟨.endOfInput,"",⟨source.file,(bytes source.text.toList).toUInt32,
    (bytes source.text.toList).toUInt32⟩⟩

/-- What a list of tokens has to be so that they are those of a source. -/
structure Source.Scanned (source : Source) (ts : List Token) : Prop where
  /-- They stand one behind the other. -/
  ordered : ts.Pairwise fun t u => t.span.stop ≤ u.span.start
  /-- Each is the text between the offsets of its span, and these lie between characters. -/
  stands : ∀ t ∈ ts, ∃ before behind, t.Stands (.ofSource source) before behind ∧
    (t.kind ≠ .endOfInput → t.text ≠ "" ∧ t.kind.Longest t.text.toList behind)
  /-- What is in no token is blank. -/
  blanks : ∀ before c behind, source.text.toList = before ++ c :: behind →
    (∀ t ∈ ts, ¬ t.Covers (bytes before)) → isBlank c = true
  /-- The end token is the last one and only that. -/
  ending : ∃ ws, ts = ws ++ [source.ending] ∧ ∀ t ∈ ws, t.kind ≠ .endOfInput

namespace Source
variable {source : Source} {ts ws : List Token}

theorem last_ofSource (source : Source) : (Scanner.ofSource source).last = source.ending := by
  simp [Scanner.last,Scanner.tokenHere,Scanner.ofSource,ending]

section Bounded
variable (h : bytes source.text.toList < 2^32)
include h

theorem ending_stands : source.ending.Stands (.ofSource source) source.text.toList [] where
  text := by simp [ending,Scanner.ofSource]
  file := rfl
  start := by
    simp only [ending,Scanner.ofSource,Nat.toUInt32_eq,UInt32.toNat_ofNat']
    omega
  stop := by
    simp only [ending,Scanner.ofSource,Nat.toUInt32_eq,UInt32.toNat_ofNat',String.toList_empty,
      bytes_nil]
    omega

theorem scanned_iff_cut : source.Scanned (ws ++ [source.ending]) ↔
    (Scanner.ofSource source).Cut ws ∧ ∀ t ∈ ws, t.kind ≠ .endOfInput := by
  have hend := ending_stands h
  constructor
  · intro hs
    obtain ⟨hordered,-,-⟩ := List.pairwise_append.mp hs.ordered
    have hkinds : ∀ t ∈ ws, t.kind ≠ .endOfInput := by
      obtain ⟨ws',hws,hk⟩ := hs.ending
      rwa [List.append_cancel_right hws]
    refine ⟨⟨hordered,fun t ht => ?_,fun before c behind hc hcovers => ?_⟩,hkinds⟩
    · obtain ⟨before,behind,hb,hl⟩ := hs.stands t (List.mem_append_left _ ht)
      exact ⟨before,behind,hb,(hl (hkinds t ht)).2⟩
    · refine hs.blanks before c behind hc fun t ht hcov => ?_
      rcases List.mem_append.mp ht with ht | ht
      · exact hcovers t ht (by rwa [Scanner.ofSource,Nat.zero_add])
      · rw [List.mem_singleton.mp ht] at hcov
        exact Nat.lt_irrefl _ (Nat.lt_of_le_of_lt hcov.1 hcov.2)
  · rintro ⟨hcut,hkinds⟩
    refine ⟨List.pairwise_append.mpr ⟨hcut.ordered,by simp,fun t ht u hu => ?_⟩,fun t ht => ?_,
      fun before c behind hc hcovers => ?_,ws,rfl,hkinds⟩
    · obtain ⟨before,behind,hb,-⟩ := hcut.longest t ht
      have hbytes := congrArg bytes hb.text
      simp only [bytes_append] at hbytes
      have hstart := hend.start
      have hstop := hb.stop
      have hrest : (Scanner.ofSource source).rest = source.text.toList := rfl
      rw [List.mem_singleton.mp hu,UInt32.le_iff_toNat_le]
      rw [hrest] at hbytes
      omega
    · rcases List.mem_append.mp ht with ht | ht
      · obtain ⟨before,behind,hb,hl⟩ := hcut.longest t ht
        refine ⟨before,behind,hb,fun _ => ⟨?_,hl⟩⟩
        obtain ⟨c,cs,hc,-⟩ := hl.head
        intro he
        simp [he] at hc
      · rw [List.mem_singleton.mp ht]
        exact ⟨_,_,hend,fun hk => absurd rfl hk⟩
    · refine hcut.blanks before c behind hc fun t ht hcov => ?_
      refine hcovers t (List.mem_append_left _ ht) ?_
      rwa [Scanner.ofSource,Nat.zero_add] at hcov

theorem token_stands {t : Token} (ht : t ∈ source.tokens) : ∃ before behind,
    t.Stands (.ofSource source) before behind ∧
      (t.kind ≠ .endOfInput → t.kind.Longest t.text.toList behind) := by
  have hcut := ((Scanner.ofSource source).cut_iff (by simpa [Scanner.ofSource] using h) _).mpr rfl
  have hs := (scanned_iff_cut h).mpr ⟨hcut,(Scanner.ofSource source).ahead_ne_end⟩
  rw [tokens,last_ofSource] at ht
  obtain ⟨before,behind,hb,hl⟩ := hs.stands t ht
  exact ⟨before,behind,hb,fun hk => (hl hk).2⟩

end Bounded
end Source

theorem Token.Stands.moved {t : Token} {s : Scanner} {before behind : List Char} {n : Nat}
    (h : t.Stands s before behind) (hn : s.offset+bytes s.rest+n < 2^32) :
    (t.moved n).span.start.toNat = t.span.start.toNat+n ∧
      (t.moved n).span.stop.toNat = t.span.stop.toNat+n := by
  have hbytes := congrArg bytes h.text
  have hstart := h.start
  have hstop := h.stop
  simp only [bytes_append] at hbytes
  simp only [Token.moved,UInt32.toNat_add,Nat.toUInt32_eq,UInt32.toNat_ofNat']
  omega

/-- In a source that is not too long the tokens are the only list that is as its text demands: in
order, each the longest of its class, with nothing but blanks besides, and with one end token behind.
Pulling tokens gives them one by one, and then the end token for ever. -/
theorem tokens_unique (source : Source) (h : bytes source.text.toList < 2^32) :
    (∀ ts, source.Scanned ts ↔ ts = source.tokens) ∧
      ∀ n, ((Scanner.ofSource source).pulled n).next.1 = source.tokens.getD n source.ending := by
  constructor
  · intro ts
    have hkinds := (Scanner.ofSource source).ahead_ne_end
    have hcut := Scanner.cut_iff (.ofSource source) (by simpa [Scanner.ofSource] using h)
    rw [Source.tokens,Source.last_ofSource]
    constructor
    · intro hs
      obtain ⟨ws,rfl,-⟩ := hs.ending
      rw [(hcut ws).mp ((Source.scanned_iff_cut h).mp hs).1]
    · rintro rfl
      exact (Source.scanned_iff_cut h).mpr ⟨(hcut _).mpr rfl,hkinds⟩
  · intro n
    have hpulled := congrArg Cursor.current ((Scanner.ofSource source).cursor_pulled n)
    rw [Cursor.current_iterate] at hpulled
    rw [(Scanner.next_eq _).1,← Source.last_ofSource,← Source.token,source.token_eq]
    exact hpulled

/-- A text with two symbols that could go on, a keyword, an identifier that starts like it, and a
letter outside of the language. -/
theorem tokens_unique_symbols :
    bytes "!==é iff if 07x".toList < 2^32 ∧
      Source.Scanned ⟨"!==é iff if 07x","f"⟩ (Source.tokens ⟨"!==é iff if 07x","f"⟩) ∧
      (Source.tokens ⟨"!==é iff if 07x","f"⟩).map (fun t => (t.kind,t.text)) =
        [(.notEqual,"!="),(.assign,"="),(.illegal,"é"),(.identifier,"iff"),(.ifWord,"if"),
          (.integer,"07"),(.identifier,"x"),(.endOfInput,"")] := by
  have h : bytes "!==é iff if 07x".toList < 2^32 := by decide
  exact ⟨h,((tokens_unique ⟨"!==é iff if 07x","f"⟩ h).1 _).mpr rfl,by decide +kernel⟩

end Precedence
