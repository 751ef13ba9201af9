import Mathlib.Data.List.Basic
import Mathlib.Data.Nat.Find
import Precedence.Proofs.Text.Lines

/-! Looking up the line of a byte, told by the bytes of the text alone. In UTF-8 a line feed is one
byte and no part of another character, so that lines can be counted and cut by bytes, wherever the
byte lies in its character. -/
namespace Precedence.Text

def utf8 (s : String) : List UInt8 := s.toUTF8.data.toList

def lineFeed : UInt8 := 10

/-- The offset right behind the last line feed in front of byte `p`, and 0 if there is none. -/
def lineStart (bs : List UInt8) (p : Nat) : Nat :=
  Nat.findGreatest (fun i => 0 < i ∧ bs[i-1]? = some lineFeed) p

/-- The bytes from an offset up to the next line feed with it, or up to the end. -/
def lineFrom (bs : List UInt8) (start : Nat) : List UInt8 :=
  (bs.drop start).take ((bs.drop start).idxOf lineFeed+1)

def encoded (cs : List Char) : List UInt8 := cs.flatMap String.utf8EncodeChar

theorem utf8_eq (s : String) : utf8 s = encoded s.toList := by
  have hs : (String.ofList s.toList).toByteArray = s.toList.utf8Encode := String.toByteArray_ofList
  rw [String.ofList_toList] at hs
  rw [utf8,String.toUTF8_eq_toByteArray,hs,List.utf8Encode,List.data_toByteArray]
  rfl

@[simp] theorem encoded_nil : encoded [] = [] := rfl

@[simp] theorem encoded_append (xs ys : List Char) :
    encoded (xs ++ ys) = encoded xs ++ encoded ys := List.flatMap_append

@[simp] theorem encoded_lineFeed : encoded ['\n'] = [lineFeed] := by decide

theorem encoded_eq_nil {cs : List Char} : encoded cs = [] ↔ cs = [] := by
  rw [encoded,List.flatMap_eq_nil_iff,List.eq_nil_iff_forall_not_mem]
  exact forall_congr' fun c => imp_congr_right fun _ => iff_of_false (by simp) id

@[simp] theorem length_encoded (cs : List Char) : (encoded cs).length = bytes cs := by
  induction cs with
  | nil => rfl
  | cons c cs ih =>
    rw [← List.singleton_append,encoded_append,List.length_append,ih,bytes_append]
    simp [encoded,String.length_utf8EncodeChar]

/-- The byte of a line feed is no part of any other character. -/
theorem lineFeed_mem_utf8EncodeChar {c : Char} :
    lineFeed ∈ String.utf8EncodeChar c ↔ c = '\n' := by
  have hc : c = '\n' ↔ c.val.toNat = 10 := by
    rw [← Char.val_inj,← UInt32.toNat_inj]
    rfl
  have hbyte (n : Nat) : lineFeed = UInt8.ofNat n ↔ n%256 = 10 := by
    rw [← UInt8.toNat_inj,UInt8.toNat_ofNat',eq_comm]
    rfl
  -- Of a character of more bytes each has its highest bit set.
  rw [hc]
  simp only [String.utf8EncodeChar]
  split
  · simp only [List.mem_singleton,hbyte]
    omega
  split
  · simp only [List.mem_cons,List.not_mem_nil,or_false,hbyte]
    omega
  split
  · simp only [List.mem_cons,List.not_mem_nil,or_false,hbyte]
    omega
  · simp only [List.mem_cons,List.not_mem_nil,or_false,hbyte]
    omega

theorem lineFeed_mem_encoded {cs : List Char} : lineFeed ∈ encoded cs ↔ '\n' ∈ cs := by
  simp [encoded,List.mem_flatMap,lineFeed_mem_utf8EncodeChar]

theorem count_encoded (cs : List Char) : (encoded cs).count lineFeed = cs.count '\n' := by
  induction cs with
  | nil => rfl
  | cons c cs ih =>
    rw [← List.singleton_append,encoded_append,List.count_append,ih,List.count_append]
    congr 1
    by_cases h : c = '\n'
    · rw [h]
      rfl
    · have hc : '\n' ∉ [c] := by simpa using Ne.symm h
      rw [List.count_eq_zero.mpr hc,List.count_eq_zero.mpr (mt lineFeed_mem_encoded.mp hc)]

section Bytes
variable {xs ys zs : List UInt8} {n : Nat}

/-- Bytes without a line feed, behind the start of the text or behind a line feed, are on one line,
which starts where they do. -/
theorem lineStart_eq (hx : ∀ b ∈ xs.getLast?, b = lineFeed) (hy : lineFeed ∉ ys.take n) :
    lineStart (xs ++ ys) (xs.length+n) = xs.length := by
  refine Nat.findGreatest_eq_iff.mpr ⟨Nat.le_add_right _ _,fun h0 => ⟨by omega,?_⟩,?_⟩
  · obtain ⟨b,hb⟩ := Option.ne_none_iff_exists'.mp
      (mt List.getLast?_eq_none_iff.mp (List.ne_nil_of_length_pos (Nat.pos_of_ne_zero h0)))
    rw [List.getElem?_append_left (by omega),← List.getLast?_eq_getElem?,hb,hx b hb]
  · rintro i hlt hle ⟨-,hi⟩
    rw [List.getElem?_append_right (by omega)] at hi
    refine hy (List.mem_of_getElem? (i := i-1-xs.length) ?_)
    rw [List.getElem?_take_of_lt (by omega)]
    exact hi

theorem lineFrom_of_lineFeed (hy : lineFeed ∉ ys) :
    lineFrom (xs ++ (ys ++ lineFeed :: zs)) xs.length = ys ++ [lineFeed] := by
  rw [lineFrom,List.drop_left,List.idxOf_append_of_notMem hy,List.idxOf_cons_self,Nat.add_zero,
    List.take_append,List.take_of_length_le (Nat.le_succ _)]
  simp

theorem lineFrom_of_not_mem (hy : lineFeed ∉ ys) : lineFrom (xs ++ ys) xs.length = ys := by
  rw [lineFrom,List.drop_left,List.idxOf_of_notMem hy,List.take_of_length_le (Nat.le_succ _)]

end Bytes

namespace Line.Holds
variable {line : Line} {p : Nat} {cs before behind : List Char}
  (h : line.Holds 1 p cs before behind)
include h

theorem bytes_eq : encoded cs = encoded before ++ encoded (line.text.toList ++ behind) := by
  rw [h.text,encoded_append]

theorem place_eq : p = (encoded before).length+line.column := by
  rw [length_encoded]
  exact h.column

theorem clear : lineFeed ∉ (encoded (line.text.toList ++ behind)).take line.column := by
  rcases h.ends with ⟨l,hl,hn,hc⟩ | ⟨hn,rfl,-⟩
  · rw [hl,List.append_assoc,encoded_append,List.take_append_of_le_length (by simpa using hc)]
    exact fun hm => hn (lineFeed_mem_encoded.mp (List.mem_of_mem_take hm))
  · rw [List.append_nil]
    exact fun hm => hn (lineFeed_mem_encoded.mp (List.mem_of_mem_take hm))

theorem lineStart_eq : lineStart (encoded cs) p = (encoded before).length := by
  rw [h.bytes_eq,h.place_eq]
  refine Text.lineStart_eq (fun b hb => ?_) h.clear
  rcases List.eq_nil_or_concat before with rfl | ⟨front,c,rfl⟩
  · simp at hb
  · obtain rfl := h.starts c (by simp)
    simpa [eq_comm] using hb

theorem number_eq : line.number = 1+((encoded cs).take p).count lineFeed := by
  rw [h.bytes_eq,h.place_eq,List.take_length_add_append,List.count_append,
    List.count_eq_zero.mpr h.clear,count_encoded]
  exact h.number

theorem lineFrom_eq :
    encoded line.text.toList = lineFrom (encoded cs) (encoded before).length := by
  rw [h.bytes_eq]
  rcases h.ends with ⟨l,hl,hn,-⟩ | ⟨hn,rfl,-⟩
  · have hrest : encoded (line.text.toList ++ behind) = encoded l ++ lineFeed :: encoded behind := by
      rw [hl,encoded_append,encoded_append,List.append_assoc]
      rfl
    rw [hrest,lineFrom_of_lineFeed (mt lineFeed_mem_encoded.mp hn),hl]
    simp
  · rw [List.append_nil,lineFrom_of_not_mem (mt lineFeed_mem_encoded.mp hn)]

theorem column_le : line.column ≤ bytes line.text.toList := by
  rcases h.ends with ⟨l,hl,-,hc⟩ | ⟨-,-,hc⟩
  · rw [hl,bytes_append]
    omega
  · exact hc

theorem text_eq_nil (hp : p = (encoded cs).length) (hlast : ∀ b ∈ (encoded cs).getLast?, b = lineFeed) :
    line.text.toList = [] := by
  rcases h.ends with ⟨l,hl,-,hc⟩ | ⟨hn,rfl,-⟩
  · have hbytes := congrArg bytes h.text
    have hcolumn := h.column
    have hfeed : bytes ['\n'] = 1 := rfl
    rw [length_encoded] at hp
    simp only [hl,bytes_append,hfeed] at hbytes
    omega
  · by_contra hne
    obtain ⟨b,hb⟩ := Option.ne_none_iff_exists'.mp
      (mt List.getLast?_eq_none_iff.mp (mt encoded_eq_nil.mp hne))
    have hcs := h.bytes_eq
    rw [List.append_nil] at hcs
    have hfeed := hlast b (by rw [hcs,List.getLast?_append,hb]; rfl)
    exact hn (lineFeed_mem_encoded.mp (hfeed ▸ List.mem_of_getLast? hb))

end Line.Holds

/-- There is a line for every byte of a text and for its end, and none further behind. Its number is
one more than the line feeds in front of the byte, its column counts the bytes from behind the last
one of these, and its text goes on from there to the next line feed, which belongs to it, or to the
end. So the column is no larger than the text, and the line at the end is empty where nothing stands
behind the last line feed. -/
theorem lineAt_by_bytes (content : String) (p : Nat) :
    (lineAt content p = none ↔ (utf8 content).length < p) ∧
      ∀ line, lineAt content p = some line →
        line.number = 1+((utf8 content).take p).count lineFeed ∧
        line.column = p-lineStart (utf8 content) p ∧
        utf8 line.text = lineFrom (utf8 content) (lineStart (utf8 content) p) ∧
        line.column ≤ (utf8 line.text).length ∧
        (p = (utf8 content).length → (∀ b ∈ (utf8 content).getLast?, b = lineFeed) →
          line.text = "") := by
  simp only [utf8_eq]
  refine ⟨by rw [lineAt_eq_none,length_encoded],fun line hline => ?_⟩
  obtain ⟨before,behind,h⟩ := lineAt_eq_some hline
  rw [h.lineStart_eq,length_encoded line.text.toList]
  refine ⟨h.number_eq,?_,h.lineFrom_eq,h.column_le,fun hp hlast => ?_⟩
  · have hp := h.place_eq
    omega
  · exact String.toList_eq_nil_iff.mp (h.text_eq_nil hp hlast)

/-- Inside of the second character of a second line, and at the end of a text that a line feed ends. -/
theorem lineAt_by_bytes_inside :
    lineAt "a\nbé\r" 4 = some ⟨2,"bé\r",2⟩ ∧
      2 = 1+((utf8 "a\nbé\r").take 4).count lineFeed ∧
      2 = 4-lineStart (utf8 "a\nbé\r") 4 ∧
      lineAt "é\n" 3 = some ⟨2,"",0⟩ ∧ 0 = 3-lineStart (utf8 "é\n") 3 := by
  have hinside : lineAt "a\nbé\r" 4 = some ⟨2,"bé\r",2⟩ := by decide +kernel
  have hend : lineAt "é\n" 3 = some ⟨2,"",0⟩ := by decide +kernel
  obtain ⟨hnumber,hcolumn,-⟩ := (lineAt_by_bytes _ _).2 _ hinside
  exact ⟨hinside,hnumber,hcolumn,hend,((lineAt_by_bytes _ _).2 _ hend).2.1⟩

end Precedence.Text
