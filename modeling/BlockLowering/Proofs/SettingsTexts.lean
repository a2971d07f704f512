import BlockLowering.Proofs.DecodedDepth
import BlockLowering.Settings.Document

/-! No text is both a document of settings and a program. The text of a program starts with a
bracket or a brace. As a document of settings it would start with the header of a table, and there
are no settings that are tables; with a brace it would not start at all. -/

namespace BlockLowering

namespace Json

theorem depth_settle {α : Type} {make : α → Json} (hm : ∀ a, (make a).depth = 0)
    (result : Except Flaw (α × List Char)) : (settle make result).1.depth = 0 := by
  cases result with
  | ok r => exact hm r.1
  | error f => rfl

theorem head_of_readValue {n : Nat} {cs : List Char} (h : 0 < (readValue n cs).1.depth) :
    ∃ c rest, cs = c :: rest ∧ (c = '[' ∨ c = '\x7b') := by
  cases n with
  | zero => cases h
  | succ n =>
    cases cs with
    | nil => cases h
    | cons c rest =>
      refine ⟨c, rest, rfl, ?_⟩
      by_contra hc
      rw [not_or] at hc
      have hzero : (readValue (n + 1) (c :: rest)).1.depth = 0 := by
        rw [readValue, if_neg hc.1, if_neg hc.2]
        split_ifs
        all_goals try exact depth_settle (fun _ => rfl) _
        rfl
      omega

theorem head_of_program {text : String} {p : Source.Program}
    (h : Source.Program.decode.run (read text) = .ok p) :
    ∃ c rest, skipBlanks text.toList = c :: rest ∧ (c = '[' ∨ c = '\x7b') := by
  obtain ⟨a, ha, -⟩ := Decoder.bind_eq_ok.mp h
  have hroot : (read text).root =
      (readValue (3 * text.toList.length + 3) (skipBlanks text.toList)).1 := rfl
  have hdepth := (Decoder.exists_of_record ha).1
  rw [hroot] at hdepth
  exact head_of_readValue hdepth

end Json

namespace Toml

/-- Blanks of both kinds of text before `opening`, up to the end of a line. -/
theorem skipBlanks_cases {opening : Char} {cs rest : List Char}
    (h : Json.skipBlanks cs = opening :: rest) :
    ∃ c tail, skipBlanks cs = c :: tail ∧ tail.length < cs.length ∧
      (c = opening ∨ (c = '\n' ∨ c = '\r') ∧ Json.skipBlanks tail = opening :: rest) := by
  induction cs with
  | nil => cases h
  | cons c cs ih =>
    by_cases hb : c = ' ' ∨ c = '\t'
    · have hskip : skipBlanks (c :: cs) = skipBlanks cs := by
        rcases hb with rfl | rfl <;> rfl
      have hjson : Json.skipBlanks (c :: cs) = Json.skipBlanks cs := by
        rcases hb with rfl | rfl <;> rfl
      rw [hjson] at h
      obtain ⟨d, tail, hd, hlt, hcases⟩ := ih h
      exact ⟨d, tail, hskip.trans hd, Nat.lt_succ_of_lt hlt, hcases⟩
    · rw [not_or] at hb
      refine ⟨c, cs, by simp [skipBlanks, hb.1, hb.2], Nat.lt_succ_self _, ?_⟩
      by_cases hl : c = '\n' ∨ c = '\r'
      · refine .inr ⟨hl, ?_⟩
        rw [← h]
        rcases hl with rfl | rfl <;> rfl
      · rw [not_or] at hl
        have hjson : Json.skipBlanks (c :: cs) = c :: cs := by
          simp [Json.skipBlanks, Json.isBlank, hb.1, hb.2, hl.1, hl.2]
        rw [hjson] at h
        exact .inl (List.cons.inj h).1

/-- As TOML, too, the text starts with `opening`, unless a carriage return stands alone before
it. -/
theorem head_skipLines {opening : Char} (ho : opening = '[' ∨ opening = '\x7b') {fuel : Nat}
    {cs rest : List Char} (hfuel : cs.length ≤ fuel)
    (h : Json.skipBlanks cs = opening :: rest) :
    ∃ c tail, skipLines fuel cs = c :: tail ∧ (c = opening ∨ c = '\r') := by
  induction fuel generalizing cs with
  | zero =>
    obtain rfl := List.eq_nil_of_length_eq_zero (Nat.le_zero.mp hfuel)
    cases h
  | succ fuel ih =>
    obtain ⟨c, tail, hskip, hlt, hcases⟩ := skipBlanks_cases h
    rw [skipLines, hskip]
    rcases hcases with rfl | ⟨rfl | rfl, htail⟩
    · refine ⟨c, tail, ?_, .inl rfl⟩
      rcases ho with rfl | rfl <;> rfl
    · exact ih (by omega) htail
    · cases tail with
      | nil => cases htail
      | cons next tail =>
        by_cases hn : next = '\n'
        · subst hn
          exact ih (by simp only [List.length_cons] at hlt; omega) htail
        · refine ⟨'\r', next :: tail, ?_, .inr rfl⟩
          simp [skipComment, newline?, hn]

/-- No pair starts with a brace or a carriage return. -/
theorem pairLine_eq_none {c : Char} (hc : c = '\x7b' ∨ c = '\r') (cs : List Char) :
    pairLine (c :: cs) = none := by
  have hkey : key (c :: cs) = none := by
    rcases hc with rfl | rfl <;> rfl
  rw [pairLine, hkey]
  rfl

def Value.isTable : Value → Bool
  | .table .. | .tables _ => true
  | _ => false

def HasTable (entries : Entries) : Prop := ∃ e ∈ entries, e.2.isTable = true

theorem HasTable.append {entries : Entries} (h : HasTable entries) (more : Entries) :
    HasTable (entries ++ more) := by
  obtain ⟨e, he, ht⟩ := h
  exact ⟨e, List.mem_append_left _ he, ht⟩

theorem hasTable_concat (entries : Entries) (key : String) {value : Value}
    (hv : value.isTable = true) : HasTable (entries ++ [(key, value)]) :=
  ⟨(key, value), List.mem_append_right _ List.mem_cons_self, hv⟩

theorem HasTable.replace {entries : Entries} (h : HasTable entries) (key : String) {value : Value}
    (hv : value.isTable = true) : HasTable (replace key value entries) := by
  obtain ⟨⟨k, v⟩, he, ht⟩ := h
  refine ⟨_, List.mem_map_of_mem he, ?_⟩
  by_cases hk : k = key
  · simpa [hk] using hv
  · simpa [hk] using ht

/-- A change that leaves tables leaves them wherever it is made. -/
theorem HasTable.descend {made here : Origin} {change : Origin → Entries → Option Entries}
    {path : List String} {entries entries' : Entries} (ht : HasTable entries)
    (hc : ∀ {origin es es'}, change origin es = some es' → HasTable es → HasTable es')
    (h : descend made change path here entries = some entries') : HasTable entries' := by
  cases path with
  | nil => exact hc h ht
  | cons key path =>
    rw [Toml.descend] at h
    split at h
    · obtain ⟨inner, -, h⟩ := Option.bind_eq_some_iff.mp h
      obtain rfl := Option.some.inj h
      exact ht.append _
    · obtain ⟨last, -, h⟩ := Option.bind_eq_some_iff.mp h
      obtain ⟨inner, -, h⟩ := Option.bind_eq_some_iff.mp h
      obtain rfl := Option.some.inj h
      exact ht.replace key rfl
    · split at h
      · obtain ⟨inner, -, h⟩ := Option.bind_eq_some_iff.mp h
        obtain rfl := Option.some.inj h
        exact ht.replace key rfl
      · cases h
    · cases h

theorem HasTable.addValue {path : List String} {key : String} {value : Value} {here : Origin}
    {entries entries' : Entries} (ht : HasTable entries)
    (h : addValue path key value here entries = some entries') : HasTable entries' := by
  refine ht.descend (fun {origin es es'} hc hes => ?_) h
  split at hc
  · cases hc
  · obtain rfl := Option.some.inj hc
    exact hes.append _

theorem HasTable.openTable {key : String} {entries entries' : Entries} (ht : HasTable entries)
    (h : openTable key entries = some entries') : HasTable entries' := by
  unfold Toml.openTable at h
  split at h
  · obtain rfl := Option.some.inj h
    exact ht.append _
  · obtain rfl := Option.some.inj h
    exact hasTable_concat _ key rfl
  · cases h

theorem HasTable.openNext {key : String} {entries entries' : Entries} (ht : HasTable entries)
    (h : openNext key entries = some entries') : HasTable entries' := by
  unfold Toml.openNext at h
  split at h
  · obtain rfl := Option.some.inj h
    exact ht.append _
  · obtain rfl := Option.some.inj h
    exact ht.replace key rfl
  · cases h

theorem HasTable.apply {current : List String} {entries entries' : Entries} {line : Line}
    (ht : HasTable entries) (h : line.apply current entries = some entries') :
    HasTable entries' := by
  cases line with
  | pair p => exact ht.descend (fun hc hes => hes.addValue hc) h
  | header path key => exact ht.descend (fun hc hes => hes.openTable hc) h
  | nextHeader path key => exact ht.descend (fun hc hes => hes.openNext hc) h

theorem HasTable.build {current : List String} {entries entries' : Entries}
    {lines : List (Nat × Line)} (ht : HasTable entries)
    (h : build current entries lines = .ok entries') : HasTable entries' := by
  induction lines generalizing current entries with
  | nil =>
    obtain rfl := Except.ok.inj h
    exact ht
  | cons first rest ih =>
    rw [Toml.build] at h
    split at h
    · next hline => exact ih (ht.apply hline) h
    · cases h

/-- The header that opens a document makes a table. -/
theorem hasTable_of_header {path : List String} {entries : Entries}
    {change : Origin → Entries → Option Entries}
    (hc : ∀ {origin es}, change origin [] = some es → HasTable es)
    (h : descend .passed change path .header [] = some entries) : HasTable entries := by
  cases path with
  | nil => exact hc h
  | cons key path =>
    obtain ⟨inner, -, h⟩ := Option.bind_eq_some_iff.mp h
    obtain rfl := Option.some.inj h
    exact hasTable_concat [] key rfl

def Line.isHeader : Line → Bool
  | .pair _ => false
  | _ => true

theorem hasTable_of_build {number : Nat} {line : Line} (hl : line.isHeader = true)
    {rest : List (Nat × Line)} {entries : Entries}
    (h : build [] [] ((number, line) :: rest) = .ok entries) : HasTable entries := by
  rw [build] at h
  split at h
  · next made hmade =>
    refine HasTable.build ?_ h
    cases line with
    | pair p => cases hl
    | header path key =>
      refine hasTable_of_header (fun {origin es} hes => ?_) hmade
      obtain rfl := Option.some.inj hes
      exact hasTable_concat [] key rfl
    | nextHeader path key =>
      refine hasTable_of_header (fun {origin es} hes => ?_) hmade
      obtain rfl := Option.some.inj hes
      exact hasTable_concat [] key rfl
  · cases h

theorem isHeader_of_headerLine {cs rest : List Char} {line : Line}
    (h : headerLine cs = some (line, rest)) : line.isHeader = true := by
  unfold headerLine at h
  split at h
  · obtain ⟨_, -, h⟩ := Option.bind_eq_some_iff.mp h
    obtain ⟨_, -, h⟩ := Option.bind_eq_some_iff.mp h
    obtain ⟨_, -, h⟩ := Option.bind_eq_some_iff.mp h
    obtain ⟨_, -, h⟩ := Option.bind_eq_some_iff.mp h
    obtain ⟨rfl, -⟩ := Prod.mk.inj (Option.some.inj h)
    rfl
  · obtain ⟨_, -, h⟩ := Option.bind_eq_some_iff.mp h
    obtain ⟨_, -, h⟩ := Option.bind_eq_some_iff.mp h
    obtain ⟨_, -, h⟩ := Option.bind_eq_some_iff.mp h
    obtain ⟨rfl, -⟩ := Prod.mk.inj (Option.some.inj h)
    rfl

theorem isHeader_of_numberedLines {opening : Char} (ho : opening = '[' ∨ opening = '\x7b')
    {cs rest : List Char} (hcs : Json.skipBlanks cs = opening :: rest) {last fuel : Nat}
    {lines : List (Nat × Line)} (h : numberedLines last (fuel + 1) cs = .ok lines) :
    ∃ number line more, lines = (number, line) :: more ∧ line.isHeader = true := by
  obtain ⟨c, tail, hskip, hc⟩ := head_skipLines ho (Nat.le_refl _) hcs
  rw [numberedLines, hskip] at h
  by_cases hb : c = '['
  · simp only [hb, if_true] at h
    split at h
    · next line cs hline =>
      obtain ⟨more, -, h⟩ := Decoder.bind_eq_ok.mp h
      obtain rfl := Except.ok.inj h
      exact ⟨_, line, more, rfl, isHeader_of_headerLine hline⟩
    · cases h
  · have hother : c = '\x7b' ∨ c = '\r' := by
      rcases hc with rfl | rfl
      · exact .inl (ho.resolve_left hb)
      · exact .inr rfl
    simp only [hb, if_false, pairLine_eq_none hother] at h
    cases h

/-- A text that could be a program has a table in it, if it is a document at all. -/
theorem hasTable_of_read {opening : Char} (ho : opening = '[' ∨ opening = '\x7b') {text : String}
    {rest : List Char} (hcs : Json.skipBlanks text.toList = opening :: rest) {document : Document}
    (h : read text = .ok document) : HasTable document.entries := by
  have hmark : text.toList.head? ≠ some '\ufeff' := by
    intro hhead
    cases hs : text.toList with
    | nil => simp [hs] at hhead
    | cons c cs =>
      obtain rfl : c = '\ufeff' := by simpa [hs] using hhead
      rw [hs] at hcs
      obtain ⟨rfl, -⟩ := List.cons.inj hcs
      rcases ho with ho | ho <;> cases ho
  simp only [read, hmark, if_false] at h
  obtain ⟨lines, hlines, h⟩ := Decoder.bind_eq_ok.mp h
  obtain ⟨entries, hbuild, h⟩ := Decoder.bind_eq_ok.mp h
  obtain rfl := Except.ok.inj h
  obtain ⟨number, line, more, rfl, hl⟩ := isHeader_of_numberedLines ho hcs hlines
  exact hasTable_of_build hl hbuild

end Toml

namespace Settings

theorem isTable_of_set {s s' : Settings} {key : String} {value : Toml.Value}
    (h : s.set key value = .ok s') : value.isTable = false := by
  cases value with
  | table origin entries | tables tables =>
    unfold set at h
    split at h <;> cases h
  | _ => rfl

theorem not_hasTable_of_setAll {document : Toml.Document} {s s' : Settings}
    {entries : Toml.Entries} (h : setAll document s entries = .ok s') :
    ¬ Toml.HasTable entries := by
  induction entries generalizing s with
  | nil =>
    rintro ⟨e, he, -⟩
    cases he
  | cons first rest ih =>
    obtain ⟨key, value⟩ := first
    rw [setAll] at h
    split at h
    · next hset =>
      rintro ⟨e, he, ht⟩
      rcases List.mem_cons.mp he with rfl | he
      · rw [isTable_of_set hset] at ht
        cases ht
      · exact ih h ⟨e, he, ht⟩
    · cases h

theorem not_program_of_decode {text : String} {s : Settings} (h : decode text = .ok s)
    (p : Source.Program) : Source.Program.decode.run (Json.read text) ≠ .ok p := by
  intro hp
  obtain ⟨opening, rest, hcs, ho⟩ := Json.head_of_program hp
  unfold decode at h
  split at h
  · next document hread => exact not_hasTable_of_setAll h (Toml.hasTable_of_read ho hcs hread)
  · cases h

end Settings

end BlockLowering
