import BlockLowering.Json.Printer
import BlockLowering.Proofs.RoundTrips
import Mathlib.Data.List.TakeDrop

/-! Reading what was printed. A plain tree is read back from its text, whatever level it was
printed at. -/

namespace BlockLowering.Json

theorem skipBlanks_of_not_blank {c : Char} (h : isBlank c = false) (cs : List Char) :
    skipBlanks (c :: cs) = c :: cs := by
  simp [skipBlanks, h]

theorem toList_newline (level : Nat) :
    (newline level).toList = '\n' :: List.replicate (2 * level) ' ' := by
  simp [newline, String.toList_append]

theorem skipBlanks_newline (level : Nat) {c : Char} (h : isBlank c = false) (cs : List Char) :
    skipBlanks ((newline level).toList ++ c :: cs) = c :: cs := by
  have hblank : ∀ b ∈ (newline level).toList, isBlank b = true := by
    intro b hb
    rw [toList_newline] at hb
    rcases List.mem_cons.mp hb with rfl | hb
    · rfl
    · rw [(List.mem_replicate.mp hb).2]
      rfl
  rw [skipBlanks, List.dropWhile_append_of_pos hblank]
  exact skipBlanks_of_not_blank h cs

theorem hexPair_codeUnit {n : Nat} (h : n < 0x20) :
    ∃ a b, (hexPair n).toList = [a, b] ∧ codeUnit? '0' '0' a b = some n := by
  have hall : ∀ k < 0x20, (hexPair k).toList.length = 2 ∧
      codeUnit? '0' '0' (hexPair k).toList[0]! (hexPair k).toList[1]! = some k := by decide
  obtain ⟨hlen, hunit⟩ := hall n h
  obtain ⟨a, b, hab⟩ := List.length_eq_two.mp hlen
  rw [hab] at hunit
  exact ⟨a, b, hab, hunit⟩

/-- A character is written as an escape of one letter, as an escape of four digits, or as it is. -/
theorem escapeChar_cases (c : Char) :
    (∃ e, (escapeChar c).toList = ['\\', e] ∧ e ≠ 'u' ∧ letterEscape? e = some c) ∨
    (∃ a b, (escapeChar c).toList = ['\\', 'u', '0', '0', a, b] ∧
      codeUnit? '0' '0' a b = some c.toNat ∧ c.toNat < 0x20) ∨
    (escapeChar c).toList = [c] ∧ c ≠ '"' ∧ c ≠ '\\' ∧ 0x20 ≤ c.toNat := by
  by_cases h : c = '"' ∨ c = '\\' ∨ c = '\n' ∨ c = '\r' ∨ c = '\t' ∨ c = '\x08' ∨ c = '\x0c'
  · left
    rcases h with rfl | rfl | rfl | rfl | rfl | rfl | rfl
    · exact ⟨'"', by decide⟩
    · exact ⟨'\\', by decide⟩
    · exact ⟨'n', by decide⟩
    · exact ⟨'r', by decide⟩
    · exact ⟨'t', by decide⟩
    · exact ⟨'b', by decide⟩
    · exact ⟨'f', by decide⟩
  · simp only [not_or] at h
    obtain ⟨hquote, hslash, hn, hr, ht, hb, hf⟩ := h
    right
    by_cases hc : c.toNat < 0x20
    · obtain ⟨a, b, hab, hunit⟩ := hexPair_codeUnit hc
      refine .inl ⟨a, b, ?_, hunit, hc⟩
      simp [escapeChar, hquote, hslash, hn, hr, ht, hb, hf, hc, hab]
    · refine .inr ⟨?_, hquote, hslash, Nat.le_of_not_lt hc⟩
      simp [escapeChar, hquote, hslash, hn, hr, ht, hb, hf, hc]

theorem afterText_escapeChar (c : Char) (cs : List Char) :
    afterText ((escapeChar c).toList ++ cs) = afterText cs := by
  rcases escapeChar_cases c with ⟨e, he, hu, hl⟩ | ⟨a, b, he, hu, -⟩ | ⟨he, hq, hs, hc⟩
  · simp [he, afterText, hu, hl]
  · simp [he, afterText, hu]
  · simp [he, afterText, hs, Nat.not_lt.mpr hc]

theorem textValue_escapeChar (c : Char) (read cs : List Char) :
    textValue read ((escapeChar c).toList ++ cs) = textValue (c :: read) cs := by
  rcases escapeChar_cases c with ⟨e, he, hu, hl⟩ | ⟨a, b, he, hu, hc⟩ | ⟨he, hq, hs, hc⟩
  · simp [he, textValue, hu, hl]
  · have ht : isTrailing c.toNat = false := by
      simp only [isTrailing, Bool.and_eq_false_iff, decide_eq_false_iff_not]
      omega
    have hl : isLeading c.toNat = false := by
      simp only [isLeading, Bool.and_eq_false_iff, decide_eq_false_iff_not]
      omega
    simp [he, textValue, hu, ht, hl]
  · simp [he, textValue, hs, Nat.not_lt.mpr hc]

/-- The characters of a text as they are printed, without the quotes. -/
def escaped (cs : List Char) : List Char := cs.flatMap fun c => (escapeChar c).toList

theorem toList_escape (s : String) : (escape s).toList = '"' :: (escaped s.toList ++ ['"']) := by
  simp [escape, escaped, String.toList_append, String.toList_join, List.flatMap_map]

theorem afterText_escaped (cs rest : List Char) : afterText (escaped cs ++ '"' :: rest) = .ok rest := by
  induction cs with
  | nil => simp [escaped, afterText]
  | cons c cs ih =>
    rw [escaped, List.flatMap_cons, List.append_assoc, afterText_escapeChar]
    exact ih

theorem textValue_escaped (cs read rest : List Char) :
    textValue read (escaped cs ++ '"' :: rest) = .ok (read.reverse ++ cs) := by
  induction cs generalizing read with
  | nil => simp [escaped, textValue]
  | cons c cs ih =>
    rw [escaped, List.flatMap_cons, List.append_assoc, textValue_escapeChar]
    rw [show cs.flatMap (fun c => (escapeChar c).toList) = escaped cs from rfl, ih]
    simp

theorem readText_escaped (s : String) (rest : List Char) :
    readText (escaped s.toList ++ '"' :: rest) = .ok (.ok s, rest) := by
  rw [readText, afterText_escaped, textValue_escaped]
  simp [Except.map]

/-- What may follow a printed value: a comma, a new line, or nothing. -/
def Ends (rest : List Char) : Prop := ∀ c ∈ rest.head?, c = ',' ∨ c = '\n'

/-- The decimal digits of a number, as numbers. -/
def decimals (n : Nat) : List Nat := (Nat.toDigits 10 n).map (·.toNat - '0'.toNat)

theorem digitsOf_toDigits (n : Nat) {rest : List Char} (h : Ends rest) :
    digitsOf (Nat.toDigits 10 n ++ rest) = (decimals n, rest) := by
  have hstop : rest.takeWhile Char.isDigit = [] ∧ rest.dropWhile Char.isDigit = rest := by
    cases rest with
    | nil => simp
    | cons c cs => rcases h c rfl with rfl | rfl <;> simp
  rw [digitsOf, List.span_eq_takeWhile_dropWhile, List.takeWhile_append_of_pos (toDigits_isDigit n),
    List.dropWhile_append_of_pos (toDigits_isDigit n), hstop.1, hstop.2, List.append_nil]
  rfl

theorem toDigits_eq_zero_cons {n : Nat} {cs : List Char} (h : Nat.toDigits 10 n = '0' :: cs) :
    cs = [] := by
  induction n using Nat.strongRecOn generalizing cs with
  | _ n ih =>
    by_cases hn : n < 10
    · rw [Nat.toDigits_of_lt_base hn] at h
      exact (List.cons.inj h).2.symm
    · rw [Nat.toDigits_of_base_le (by decide) (Nat.le_of_not_lt hn)] at h
      cases hm : Nat.toDigits 10 (n / 10) with
      | nil => exact absurd hm Nat.toDigits_ne_nil
      | cons c cs' =>
        rw [hm, List.cons_append] at h
        obtain ⟨rfl, -⟩ := List.cons.inj h
        have hnil := ih (n / 10) (by omega) hm
        have hzero : n / 10 = 0 := by
          rw [← Nat.ofDigitChars_ten_toDigits (n := n / 10), hm, hnil]
          rfl
        omega

theorem decimals_ne_nil (n : Nat) : decimals n ≠ [] := by
  rw [decimals, Ne, List.map_eq_nil_iff]
  exact Nat.toDigits_ne_nil

theorem decimals_eq_zero_cons {n : Nat} {ds : List Nat} (h : decimals n = 0 :: ds) : ds = [] := by
  obtain ⟨c, cs, hcs, hc, hds⟩ := List.map_eq_cons_iff.mp h
  have hdigit := toDigits_isDigit n c (hcs ▸ List.mem_cons_self)
  have hzero : c = '0' := by
    simp only [Char.isDigit, Bool.and_eq_true, decide_eq_true_eq] at hdigit
    have hlow : 48 ≤ c.toNat := UInt32.le_iff_toNat_le.mp hdigit.1
    have hhigh : c.toNat - 48 = 0 := hc
    rw [← Char.ofNat_toNat c, show c.toNat = 48 by omega]
  rw [hzero] at hcs
  rw [← hds, toDigits_eq_zero_cons hcs, List.map_nil]

theorem readNumber_toDigits (negative : Bool) (n : Nat) {rest : List Char} (h : Ends rest) :
    readNumber negative (Nat.toDigits 10 n ++ rest) =
      .ok (Numeral.toNumber ⟨negative, decimals n, none, none⟩, rest) := by
  have hdigits : readDigits (Nat.toDigits 10 n ++ rest) = .ok (decimals n, rest) := by
    rw [readDigits, digitsOf_toDigits n h]
    cases hd : decimals n with
    | nil => exact absurd hd (decimals_ne_nil n)
    | cons d ds => rfl
  have hwhole : readWhole (Nat.toDigits 10 n ++ rest) = .ok (decimals n, rest) := by
    rw [readWhole, hdigits]
    cases hd : decimals n with
    | nil => rfl
    | cons d ds =>
      cases ds with
      | nil => cases d <;> rfl
      | cons d' ds =>
        cases d with
        | zero => cases decimals_eq_zero_cons hd
        | succ d => rfl
  have hfraction : readFraction rest = .ok (none, rest) := by
    cases rest with
    | nil => rfl
    | cons c cs => rcases h c rfl with rfl | rfl <;> simp [readFraction]
  have hexponent : readExponent rest = .ok (none, rest) := by
    cases rest with
    | nil => rfl
    | cons c cs => rcases h c rfl with rfl | rfl <;> simp [readExponent]
  simp only [readNumber, hwhole, hfraction, hexponent, bind, Except.bind]
  rfl

theorem le_foldl_decimal (ds : List Nat) (n : Nat) : n ≤ ds.foldl (fun n d => n * 10 + d) n := by
  induction ds generalizing n with
  | nil => exact Nat.le_refl n
  | cons d ds ih =>
    rw [List.foldl_cons]
    exact Nat.le_trans (by omega) (ih (n * 10 + d))

theorem keepWhole_eq {ds : List Nat} {n : Nat}
    (h : ds.foldl (fun n d => n * 10 + d) n < Numeral.wordLimit) :
    Numeral.keepWhole n ds = (ds.foldl (fun n d => n * 10 + d) n, 0) := by
  induction ds generalizing n with
  | nil => rfl
  | cons d ds ih =>
    rw [List.foldl_cons] at h ⊢
    have hd : n * 10 + d < Numeral.wordLimit := Nat.lt_of_le_of_lt (le_foldl_decimal ds _) h
    rw [Numeral.keepWhole, if_pos hd, ih h]

theorem keepWhole_decimals {n : Nat} (h : n < Numeral.wordLimit) :
    Numeral.keepWhole 0 (decimals n) = (n, 0) := by
  have hvalue : (decimals n).foldl (fun n d => n * 10 + d) 0 = n := by
    rw [decimals, List.foldl_map]
    simp only [Nat.mul_comm _ 10]
    exact Nat.ofDigitChars_ten_toDigits
  rw [keepWhole_eq (hvalue.symm ▸ h), hvalue]

theorem toNumber_decimals {n : Nat} (h : n < Numeral.wordLimit) :
    Numeral.toNumber ⟨false, decimals n, none, none⟩ = .ok (.int n) := by
  simp [Numeral.toNumber, keepWhole_decimals h]

theorem toNumber_neg_decimals {n : Nat} (hpos : 0 < n) (h : n ≤ 0x8000000000000000) :
    Numeral.toNumber ⟨true, decimals n, none, none⟩ = .ok (.int (-n)) := by
  have hlimit : n < Numeral.wordLimit := Nat.lt_of_le_of_lt h (by decide)
  have hle : n ≤ Nat.pow 2 63 := h
  simp [Numeral.toNumber, keepWhole_decimals hlimit, Nat.pos_iff_ne_zero.mp hpos, hle]

theorem toList_null (level : Nat) : (print level .null).toList = ['n', 'u', 'l', 'l'] := by
  show "null".toList = _
  decide

theorem toList_true (level : Nat) : (print level (.bool true)).toList = ['t', 'r', 'u', 'e'] := by
  show "true".toList = _
  decide

theorem toList_false (level : Nat) :
    (print level (.bool false)).toList = ['f', 'a', 'l', 's', 'e'] := by
  show "false".toList = _
  decide

theorem toList_ofNat (level n : Nat) : (print level (.ofInt n)).toList = Nat.toDigits 10 n :=
  Nat.toList_repr

theorem toList_negSucc (level n : Nat) :
    (print level (.ofInt (.negSucc n))).toList = '-' :: Nat.toDigits 10 (n + 1) := by
  have hrepr : (print level (.ofInt (.negSucc n))) = "-" ++ (n + 1).repr := rfl
  rw [hrepr, String.toList_append, Nat.toList_repr]
  rfl

theorem toList_ofString (level : Nat) (s : String) :
    (print level (.ofString s)).toList = '"' :: (escaped s.toList ++ ['"']) :=
  toList_escape s

theorem toList_list_nil (level : Nat) : (print level (.ofList [])).toList = ['[', ']'] := by
  show "[]".toList = _
  decide

theorem toList_list_cons (level : Nat) (item : Json) (items : List Json) :
    (print level (.ofList (item :: items))).toList = '[' :: ((newline (level + 1)).toList ++
      ((print (level + 1) item).toList ++ ((printItems (level + 1) items).toList ++
        ((newline level).toList ++ [']'])))) := by
  simp [ofList, print, String.toList_append]

theorem toList_items_cons (level : Nat) (item : Json) (items : List Json) :
    (printItems level (item :: items)).toList = ',' :: ((newline level).toList ++
      ((print level item).toList ++ (printItems level items).toList)) := by
  simp [printItems, String.toList_append]

theorem toList_object_nil (level : Nat) :
    (print level (.ofMembers [])).toList = ['\x7b', '\x7d'] := by
  show "\x7b\x7d".toList = _
  decide

theorem toList_object_cons (level : Nat) (m : String × Json) (members : List (String × Json)) :
    (print level (.ofMembers (m :: members))).toList = '\x7b' :: ((newline (level + 1)).toList ++
      '"' :: (escaped m.1.toList ++ '"' :: ':' :: ' ' :: ((print (level + 1) m.2).toList ++
        ((printMembers (level + 1) (keyed members)).toList ++
          ((newline level).toList ++ ['\x7d']))))) := by
  simp [ofMembers, keyed, print, printToken, toList_escape, String.toList_append]

theorem toList_members_cons (level : Nat) (m : String × Json) (members : List (String × Json)) :
    (printMembers level (keyed (m :: members))).toList = ',' :: ((newline level).toList ++
      '"' :: (escaped m.1.toList ++ '"' :: ':' :: ' ' :: ((print level m.2).toList ++
        (printMembers level (keyed members)).toList))) := by
  simp [keyed, printMembers, printToken, toList_escape, String.toList_append]

/-- A printed value starts with a character that is not blank and closes no list. -/
theorem Plain.print_head {j : Json} (h : j.Plain) (level : Nat) :
    ∃ c cs, (print level j).toList = c :: cs ∧ isBlank c = false ∧ c ≠ ']' := by
  cases h with
  | null => exact ⟨_, _, toList_null level, rfl, by decide⟩
  | bool b =>
    cases b with
    | false => exact ⟨_, _, toList_false level, rfl, by decide⟩
    | true => exact ⟨_, _, toList_true level, rfl, by decide⟩
  | integer n low high =>
    cases n with
    | ofNat n =>
      obtain ⟨c, cs, hcs, hc⟩ := exists_toDigits n
      refine ⟨c, cs, (toList_ofNat level n).trans hcs, ?_, ne_of_isDigit hc rfl⟩
      simp [isBlank, ne_of_isDigit hc]
    | negSucc n => exact ⟨_, _, toList_negSucc level n, rfl, by decide⟩
  | text s => exact ⟨_, _, toList_ofString level s, rfl, by decide⟩
  | list items h =>
    cases items with
    | nil => exact ⟨_, _, toList_list_nil level, rfl, by decide⟩
    | cons item items => exact ⟨_, _, toList_list_cons level item items, rfl, by decide⟩
  | object members h =>
    cases members with
    | nil => exact ⟨_, _, toList_object_nil level, rfl, by decide⟩
    | cons m members => exact ⟨_, _, toList_object_cons level m members, rfl, by decide⟩

/-- The value is read back from its text, with one unit of fuel for every character. -/
def Readable (j : Json) : Prop :=
  ∀ (level n : Nat) (rest : List Char), Ends rest → (print level j).toList.length ≤ n →
    readValue n ((print level j).toList ++ rest) = (j, rest)

/-- There is fuel for at least one character. -/
theorem readable_of_succ {j : Json} (h : j.Plain) (hr : ∀ (level n : Nat) (rest : List Char),
      Ends rest → (print level j).toList.length ≤ n + 1 →
        readValue (n + 1) ((print level j).toList ++ rest) = (j, rest)) : j.Readable := by
  intro level n rest hrest hn
  obtain ⟨c, cs, hhead, -, -⟩ := h.print_head level
  cases n with
  | zero => simp [hhead] at hn
  | succ n => exact hr level n rest hrest hn

theorem readable_null : Readable .null := by
  refine readable_of_succ .null fun level n rest _ _ => ?_
  rw [toList_null]
  rfl

theorem readable_bool (b : Bool) : Readable (.bool b) := by
  refine readable_of_succ (.bool b) fun level n rest _ _ => ?_
  cases b with
  | false =>
    rw [toList_false]
    rfl
  | true =>
    rw [toList_true]
    rfl

theorem readable_text (s : String) : Readable (.ofString s) := by
  refine readable_of_succ (.text s) fun level n rest _ _ => ?_
  rw [toList_ofString, List.cons_append, List.append_assoc, readValue, if_pos rfl]
  simp only [List.singleton_append, readText_escaped]
  rfl

theorem readable_integer {k : Int} (low : -0x8000000000000000 ≤ k)
    (high : k < 0x10000000000000000) :
    Readable (.ofInt k) := by
  refine readable_of_succ (.integer k low high) fun level n rest hr _ => ?_
  cases k with
  | ofNat m =>
    have hm : m < Numeral.wordLimit := by
      have hcast : ((m : Nat) : Int) < 0x10000000000000000 := high
      change m < 0x10000000000000000
      omega
    have hnumber := readNumber_toDigits false m hr
    obtain ⟨c, cs, hcs, hc⟩ := exists_toDigits m
    have hne : ∀ d : Char, d.isDigit = false → c ≠ d := fun d => ne_of_isDigit hc
    rw [show Int.ofNat m = (m : Int) from rfl, toList_ofNat]
    rw [hcs, List.cons_append] at hnumber ⊢
    rw [readValue, if_neg (hne _ rfl), if_neg (hne _ rfl), if_neg (hne _ rfl), if_neg (hne _ rfl),
      if_pos hc, hnumber, toNumber_decimals hm]
    rfl
  | negSucc m =>
    have hm : m + 1 ≤ 0x8000000000000000 := by
      omega
    rw [toList_negSucc, List.cons_append, readValue, if_neg (by decide), if_neg (by decide),
      if_neg (by decide), if_pos rfl, readNumber_toDigits true (m + 1) hr,
      toNumber_neg_decimals (Nat.succ_pos m) hm]
    rfl

theorem ends_newline (level : Nat) (cs : List Char) : Ends ((newline level).toList ++ cs) := by
  rw [toList_newline]
  intro c hc
  exact .inr (Option.some.inj hc).symm

theorem ends_comma (cs : List Char) : Ends (',' :: cs) :=
  fun _ hc => .inl (Option.some.inj hc).symm

section

variable {item : Json} {level n : Nat} {rest : List Char}

theorem readMoreItems_last (h : item.Readable) (hn : (print level item).toList.length ≤ n)
    (outer : Nat) :
    readMoreItems (n + 1) ((print level item).toList ++ ((newline outer).toList ++ ']' :: rest)) =
      ([item], .closed, rest) := by
  rw [readMoreItems, h level n _ (ends_newline outer _) hn]
  simp only [skipBlanks_newline outer (show isBlank ']' = false from rfl)]

theorem readMoreItems_next {c : Char} {cs : List Char} {items : List Json} {stop : Stop}
    (h : item.Readable) (hn : (print level item).toList.length ≤ n) (hblank : isBlank c = false)
    (hclose : c ≠ ']') (hmore : readMoreItems n (c :: cs) = (items, stop, rest)) :
    readMoreItems (n + 1) ((print level item).toList ++
      ',' :: ((newline level).toList ++ c :: cs)) = (item :: items, stop, rest) := by
  rw [readMoreItems, h level n _ (ends_comma _) hn]
  simp only [skipBlanks_of_not_blank (show isBlank ',' = false from rfl),
    skipBlanks_newline level hblank]
  split
  · next he => cases he
  · next he => exact absurd (List.cons.inj he).1 hclose
  · next he => rw [hmore]

end

theorem readMoreItems_printed {item : Json} {items : List Json}
    (hp : ∀ j ∈ item :: items, j.Plain) (h : ∀ j ∈ item :: items, j.Readable)
    (level outer n : Nat) (rest : List Char)
    (hn : (print level item).toList.length + (printItems level items).toList.length < n) :
    readMoreItems n ((print level item).toList ++ ((printItems level items).toList ++
      ((newline outer).toList ++ ']' :: rest))) = (item :: items, .closed, rest) := by
  induction items generalizing item n with
  | nil =>
    obtain ⟨n, rfl⟩ := Nat.exists_eq_add_one.mpr (Nat.lt_of_le_of_lt (Nat.zero_le _) hn)
    exact readMoreItems_last (h item List.mem_cons_self) (by omega) outer
  | cons next items ih =>
    obtain ⟨n, rfl⟩ := Nat.exists_eq_add_one.mpr (Nat.lt_of_le_of_lt (Nat.zero_le _) hn)
    rw [toList_items_cons] at hn ⊢
    simp only [List.length_cons, List.length_append] at hn
    have hrest := ih (fun j hj => hp j (List.mem_cons_of_mem _ hj))
      (fun j hj => h j (List.mem_cons_of_mem _ hj)) n (by omega)
    obtain ⟨c, cs, hhead, hblank, hclose⟩ :=
      (hp next (List.mem_cons_of_mem _ List.mem_cons_self)).print_head level
    simp only [hhead, List.cons_append, List.append_assoc] at hrest ⊢
    exact readMoreItems_next (h item List.mem_cons_self) (by omega) hblank hclose hrest

section

variable {key : String} {value : Json} {level n : Nat} {rest : List Char}

theorem readValue_after_space (hp : value.Plain) (h : value.Readable) {more : List Char}
    (hm : Ends more) (hn : (print level value).toList.length ≤ n) :
    readValue n (skipBlanks (' ' :: ((print level value).toList ++ more))) = (value, more) := by
  have hskip : skipBlanks (' ' :: ((print level value).toList ++ more)) =
      (print level value).toList ++ more := by
    obtain ⟨c, cs, hhead, hblank, -⟩ := hp.print_head level
    rw [hhead]
    exact skipBlanks_of_not_blank hblank _
  rw [hskip, h level n more hm hn]

theorem readMoreMembers_last (hp : value.Plain) (h : value.Readable)
    (hn : (print level value).toList.length ≤ n) (outer : Nat) :
    readMoreMembers (n + 1) (escaped key.toList ++ '"' :: ':' :: ' ' ::
      ((print level value).toList ++ ((newline outer).toList ++ '\x7d' :: rest))) =
        ([(.ok key, value)], .closed, rest) := by
  rw [readMoreMembers, readText_escaped]
  simp only [skipBlanks_of_not_blank (show isBlank ':' = false from rfl),
    readValue_after_space hp h (ends_newline outer _) hn,
    skipBlanks_newline outer (show isBlank '\x7d' = false from rfl)]

theorem readMoreMembers_next {cs : List Char} {members : List (Token String × Json)} {stop : Stop}
    (hp : value.Plain) (h : value.Readable) (hn : (print level value).toList.length ≤ n)
    (hmore : readMoreMembers n cs = (members, stop, rest)) :
    readMoreMembers (n + 1) (escaped key.toList ++ '"' :: ':' :: ' ' ::
      ((print level value).toList ++ ',' :: ((newline level).toList ++ '"' :: cs))) =
        ((.ok key, value) :: members, stop, rest) := by
  rw [readMoreMembers, readText_escaped]
  simp only [skipBlanks_of_not_blank (show isBlank ':' = false from rfl),
    readValue_after_space hp h (ends_comma _) hn,
    skipBlanks_of_not_blank (show isBlank ',' = false from rfl),
    skipBlanks_newline level (show isBlank '"' = false from rfl), hmore]

end

theorem readMoreMembers_printed {m : String × Json} {members : List (String × Json)}
    (hp : ∀ m' ∈ m :: members, m'.2.Plain) (h : ∀ m' ∈ m :: members, m'.2.Readable)
    (level outer n : Nat) (rest : List Char)
    (hn : (print level m.2).toList.length + (printMembers level (keyed members)).toList.length < n) :
    readMoreMembers n (escaped m.1.toList ++ '"' :: ':' :: ' ' :: ((print level m.2).toList ++
      ((printMembers level (keyed members)).toList ++ ((newline outer).toList ++ '\x7d' :: rest)))) =
        (keyed (m :: members), .closed, rest) := by
  induction members generalizing m n with
  | nil =>
    obtain ⟨n, rfl⟩ := Nat.exists_eq_add_one.mpr (Nat.lt_of_le_of_lt (Nat.zero_le _) hn)
    exact readMoreMembers_last (hp m List.mem_cons_self) (h m List.mem_cons_self) (by omega) outer
  | cons next members ih =>
    obtain ⟨n, rfl⟩ := Nat.exists_eq_add_one.mpr (Nat.lt_of_le_of_lt (Nat.zero_le _) hn)
    rw [toList_members_cons] at hn ⊢
    simp only [List.length_cons, List.length_append] at hn
    have hrest := ih (fun m' hm' => hp m' (List.mem_cons_of_mem _ hm'))
      (fun m' hm' => h m' (List.mem_cons_of_mem _ hm')) n (by omega)
    simp only [List.cons_append, List.append_assoc]
    exact readMoreMembers_next (hp m List.mem_cons_self) (h m List.mem_cons_self) (by omega) hrest

theorem readable_list {items : List Json} (hp : ∀ j ∈ items, j.Plain)
    (h : ∀ j ∈ items, j.Readable) : Readable (.ofList items) := by
  refine readable_of_succ (.list items hp) fun level n rest _ hn => ?_
  cases items with
  | nil =>
    rw [toList_list_nil] at hn ⊢
    obtain ⟨n, rfl⟩ := Nat.exists_eq_add_one.mpr (Nat.lt_of_succ_le (Nat.le_of_succ_le_succ hn))
    rfl
  | cons item items =>
    rw [toList_list_cons] at hn ⊢
    simp only [toList_newline, List.length_cons, List.length_append] at hn
    obtain ⟨n, rfl⟩ : ∃ k, n = k + 1 := Nat.exists_eq_add_one.mpr (by omega)
    have hitems := readMoreItems_printed hp h (level + 1) level n rest (by omega)
    obtain ⟨c, cs, hhead, hblank, hclose⟩ := (hp item List.mem_cons_self).print_head (level + 1)
    rw [hhead] at hitems ⊢
    simp only [List.cons_append, List.append_assoc, List.nil_append] at hitems ⊢
    rw [readValue, if_neg (by decide), if_pos rfl, skipBlanks_newline _ hblank, readItems,
      if_neg hclose, hitems]
    rfl

theorem readable_object {members : List (String × Json)} (hp : ∀ m ∈ members, m.2.Plain)
    (h : ∀ m ∈ members, m.2.Readable) : Readable (.ofMembers members) := by
  refine readable_of_succ (.object members hp) fun level n rest _ hn => ?_
  cases members with
  | nil =>
    rw [toList_object_nil] at hn ⊢
    obtain ⟨n, rfl⟩ := Nat.exists_eq_add_one.mpr (Nat.lt_of_succ_le (Nat.le_of_succ_le_succ hn))
    rfl
  | cons m members =>
    rw [toList_object_cons] at hn ⊢
    simp only [toList_newline, List.length_cons, List.length_append] at hn
    obtain ⟨n, rfl⟩ : ∃ k, n = k + 1 := Nat.exists_eq_add_one.mpr (by omega)
    have hmembers := readMoreMembers_printed hp h (level + 1) level n rest (by omega)
    simp only [List.cons_append, List.append_assoc, List.nil_append] at hmembers ⊢
    rw [readValue, if_neg (by decide), if_neg (by decide), if_pos rfl,
      skipBlanks_newline _ (show isBlank '"' = false from rfl), readMembers, if_neg (by decide),
      if_pos rfl, hmembers]
    rfl

theorem Plain.readable {j : Json} (h : j.Plain) : j.Readable := by
  induction h with
  | null => exact readable_null
  | bool b => exact readable_bool b
  | integer n low high => exact readable_integer low high
  | text s => exact readable_text s
  | list items h ih => exact readable_list h ih
  | object members h ih => exact readable_object h ih

/-- A printed document is read back as the tree it was printed from, with nothing after it. -/
theorem Plain.read_pretty {j : Json} (h : j.Plain) : read (j.pretty ++ "\n") = ⟨j, false⟩ := by
  have htext : (j.pretty ++ "\n").toList = (print 0 j).toList ++ ['\n'] := String.toList_append
  have hskip : skipBlanks ((print 0 j).toList ++ ['\n']) = (print 0 j).toList ++ ['\n'] := by
    obtain ⟨c, cs, hhead, hblank, -⟩ := h.print_head 0
    rw [hhead]
    exact skipBlanks_of_not_blank hblank _
  have hvalue := h.readable 0 (3 * ((print 0 j).toList ++ ['\n']).length + 3) ['\n']
    (ends_newline 0 []) (by rw [List.length_append]; omega)
  rw [read, htext, hskip, hvalue]
  rfl

end BlockLowering.Json
