import BlockLowering.Proofs.ClassLayouts
import BlockLowering.Proofs.LoweredNumbers
import BlockLowering.Proofs.NumberTexts

/-! Integer literals are exact. A node for a number has the integer that its value denotes, or it is
refused; numbers of any size are written as texts that denote them; and lowering keeps them. -/

namespace BlockLowering

open Flat (Operand Instr)
open Source (Literal Expr bodyExprs bodyNumberRows InRows)

variable {α : Type}

namespace Decoder

/-- The tree is an integer, or a text that spells one. -/
inductive Denotes : Json → Int → Prop
  | number (k : Int) : Denotes (.ofInt k) k
  | text {s : String} {k : Int} : Spells s.toList k → Denotes (.ofString s) k

theorem integer_eq_ok_iff {levels : Nat} {phase : Phase} {j : Json} {k : Int} :
    integer levels phase j = .ok k ↔ Denotes j k := by
  constructor
  · intro h
    unfold integer at h
    split at h
    · cases h
      exact .number k
    · cases h
    · next s =>
      split at h
      · next hp =>
        cases h
        exact .text (parseInt_eq_ok_iff.mp hp)
      · cases h
    · split at h <;> cases h
  · intro h
    cases h with
    | number => rfl
    | text hs => simp only [Json.ofString, integer, parseInt_eq_ok_iff.mpr hs]

theorem Denotes.whole_eq_ok {j : Json} {k : Int} (h : Denotes j k) (levels : Nat) :
    j.whole levels = .ok () := by
  cases h <;> rfl

theorem Denotes.unique {j : Json} {k k' : Int} (h : Denotes j k) (h' : Denotes j k') : k = k' := by
  have hk : integer 0 .buffered j = .ok k := integer_eq_ok_iff.mpr h
  have hk' : integer 0 .buffered j = .ok k' := integer_eq_ok_iff.mpr h'
  exact Except.ok.inj (hk.symm.trans hk')

theorem denotes_number_iff {token : Token Number} {k : Int} :
    Denotes (.number token) k ↔ token = .ok (.int k) := by
  constructor
  · intro h
    cases h
    rfl
  · rintro rfl
    exact .number k

theorem denotes_toString (n : Int) : Denotes (.ofString (toString n)) n :=
  integer_eq_ok_iff.mp ((RoundTrips.integer).decode_encode n 0 .buffered (Nat.zero_le 0))

end Decoder

namespace Json

def valueOf? (name : String) : Token String × Json → Option Json
  | (.ok key, value) => if key = name then some value else none
  | (.error _, _) => none

/-- The values of the members called `name`. -/
def valuesOf (name : String) (members : List (Token String × Json)) : List Json :=
  members.filterMap (valueOf? name)

/-- The node has one value, which is `j`: the only member of that name, or all that follows the
tag. -/
def Gives : Json → Json → Prop
  | object members _, j => valuesOf "value" members = [j]
  | list items _, j => ∃ tag, items = [tag, j]
  | _, _ => False

/-- A node for a number, with the value `j` and nothing else. -/
inductive NumberNode (j : Json) : Json → Prop
  | tagFirst : NumberNode j (.ofMembers [("tag", .ofString "num"), ("value", j)])
  | tagLast : NumberNode j (.ofMembers [("value", j), ("tag", .ofString "num")])
  | items : NumberNode j (.ofList [.ofString "num", j])

end Json

open Json (valueOf? valuesOf NumberNode)

/-- The one value among what is left of a node without its tag. -/
def Contents.Gives : Contents → Json → Prop
  | .members ms _, j => valuesOf "value" ms = [j]
  | .items vs _, j => vs = [j]

theorem Opened.map_snd_occurrences (name : String) (members : List (Token String × Json))
    (i : Nat) : (occurrences name i members).map Prod.snd = valuesOf name members := by
  induction members generalizing i with
  | nil => rfl
  | cons m rest ih =>
    obtain ⟨key, value⟩ := m
    rw [valuesOf, List.filterMap_cons, ← valuesOf, ← ih (i + 1)]
    cases key with
    | error f => rfl
    | ok key =>
      by_cases hk : key = name
      · simp only [occurrences, valueOf?, if_pos hk, List.map_cons]
      · simp only [occurrences, valueOf?, if_neg hk]

theorem Opened.rest_eq_value {o : Opened} {build : Opened → Reading α} {a : α}
    (h : o.decode build = .ok a) : o.rest = .value () := by
  obtain ⟨f, a', hf, -, -⟩ := Reading.seq_eq_value.mp (Reading.toExcept_eq_ok.mp h)
  obtain ⟨u, hrest, -⟩ := Reading.map_eq_value.mp hf
  exact hrest

namespace Decoder

/-- No value is lost or changed as the tag is taken out. -/
theorem splitTag_valuesOf {known : List String} {n : Nat} {phase : Phase} {tag tag' : Option String}
    {others others' members : List (Token String × Json)} {name : String} (hname : "tag" ≠ name)
    (h : splitTag known n phase tag others members = .ok (tag', others')) :
    valuesOf name others' = valuesOf name (others.reverse ++ members) := by
  induction members generalizing tag others with
  | nil =>
    simp only [splitTag, Except.ok.injEq, Prod.mk.injEq] at h
    rw [← h.2, List.append_nil]
  | cons head rest ih =>
    obtain ⟨key, value⟩ := head
    cases key with
    | error f => cases h
    | ok key =>
      simp only [splitTag] at h
      split at h
      · next hk =>
        subst hk
        split at h
        · cases h
        · split at h
          · rw [ih h]
            simp [valuesOf, valueOf?, hname]
          · cases h
      · split at h
        · rw [ih h, List.reverse_cons, List.append_assoc, List.singleton_append]
        · cases h

theorem gives_of_openTagged {name tag : String} {known : List String} {levels : Nat}
    {phase : Phase} {node j : Json} {contents : Contents}
    (h : openTagged name known levels phase node = .ok (tag, contents)) (hg : contents.Gives j) :
    node.Gives j := by
  obtain ⟨first, rest, stop, rfl, rfl⟩ | ⟨members, others, stop, n, rfl, rfl, hs⟩ :=
    openTagged_cases h
  · exact ⟨first, congrArg (first :: ·) hg⟩
  · have hvalues := splitTag_valuesOf (by decide : "tag" ≠ "value") hs
    exact hvalues.symm.trans hg

theorem exists_of_struct {β : Type} {n : Nat} {label : String} {contents : Contents}
    {decode : Decoder β} {make : β → α} {a : α}
    (h : struct n ⟨label, ["value"]⟩ contents (fun o => make <$> o.field "value" decode) = .ok a) :
    ∃ j b, contents.Gives j ∧ decode n .buffered j = .ok b ∧ make b = a := by
  obtain ⟨b, hb, rfl⟩ := Reading.map_eq_value.mp (Opened.build_eq_value h)
  cases contents with
  | items items stop =>
    have hrest := Opened.rest_eq_value h
    match items with
    | [] => cases hb
    | [j] => exact ⟨j, b, rfl, Reading.ofExcept_eq_value.mp hb, rfl⟩
    | j :: j' :: rest => simp [Opened.rest] at hrest
  | members members stop =>
    have hvalues := Opened.map_snd_occurrences "value" members 0
    unfold Opened.field at hb
    dsimp only at hb
    split at hb
    · cases hb
    · next i j ho =>
      rw [ho] at hvalues
      exact ⟨j, b, hvalues.symm, Reading.ofExcept_eq_value.mp hb, rfl⟩
    · split at hb <;> cases hb

/-- Nothing but the value is left of a node for a number once its tag is taken out. -/
theorem openTagged_numberNode {j node : Json} (h : NumberNode j node) {known : List String}
    (hk : "num" ∈ known) (name : String) (n : Nat) (phase : Phase) :
    ∃ contents : Contents, (contents = .members [(.ok "value", j)] .closed ∨
        contents = .items [j] .closed) ∧
      openTagged name known (n + 1) phase node =
        formed (if phase = .buffered then .ok () else j.whole n) >>= fun _ =>
          .ok ("num", contents) := by
  have htag : variant known n phase (.ofString "num") = .ok "num" := if_pos hk
  cases h with
  | tagFirst | tagLast =>
    refine ⟨_, .inl rfl, ?_⟩
    simp only [openTagged, Json.ofMembers, List.map_cons, List.map_nil, splitTag, String.reduceEq,
      if_true, if_false, htag]
    cases if phase = .buffered then .ok () else j.whole n <;> rfl
  | items =>
    refine ⟨_, .inr rfl, ?_⟩
    simp only [openTagged, Json.ofList, Json.wholeItems, htag]
    cases phase with
    | buffered => rfl
    | streaming => cases j.whole n <;> rfl

theorem struct_eq_ok_iff {j : Json} {contents : Contents}
    (hc : contents = .members [(.ok "value", j)] .closed ∨ contents = .items [j] .closed)
    {n : Nat} {label : String} {make : Int → α} {a : α} :
    struct n ⟨label, ["value"]⟩ contents (fun o => make <$> o.field "value" integer) = .ok a ↔
      ∃ k, Denotes j k ∧ make k = a := by
  have hstruct : struct n ⟨label, ["value"]⟩ contents
      (fun o => make <$> o.field "value" integer) = (integer n .buffered j).map make := by
    rcases hc with rfl | rfl
    · simp only [struct, Opened.decode, Opened.field, Opened.occurrences, if_true]
      cases integer n .buffered j <;> rfl
    · simp only [struct, Opened.decode, Opened.field, List.idxOf_cons_self,
        List.getElem?_cons_zero]
      cases integer n .buffered j <;> rfl
  rw [hstruct, map_eq_ok]
  simp only [integer_eq_ok_iff]

/-- A node for a number is decoded if its value denotes an integer, to that integer. -/
theorem decode_numberNode {j node : Json} (h : NumberNode j node) {known : List String}
    (hk : "num" ∈ known) {name label : String} {n : Nat} {phase : Phase}
    {next : String × Contents → Except DecodeFault α} {make : Int → α} {a : α}
    (hnext : ∀ contents, next ("num", contents) =
      struct n ⟨label, ["value"]⟩ contents fun o => make <$> o.field "value" integer) :
    (openTagged name known (n + 1) phase node >>= next) = .ok a ↔
      ∃ k, Denotes j k ∧ make k = a := by
  obtain ⟨contents, hc, ho⟩ := openTagged_numberNode h hk name n phase
  rw [ho, ← struct_eq_ok_iff hc, ← hnext, bind_eq_ok]
  constructor
  · rintro ⟨_, hx, ha⟩
    obtain ⟨_, -, hx⟩ := bind_eq_ok.mp hx
    cases hx
    exact ha
  · intro ha
    refine ⟨_, bind_eq_ok.mpr ⟨(), ?_, rfl⟩, ha⟩
    rw [hnext, struct_eq_ok_iff hc] at ha
    obtain ⟨k, hk, -⟩ := ha
    rw [hk.whole_eq_ok, ite_self]
    rfl

end Decoder

open Decoder (Denotes bind_eq_ok unit_eq_ok integer integer_eq_ok_iff denotes_number_iff
  denotes_toString openTagged struct exists_of_struct gives_of_openTagged decode_numberNode)

/-- Decoding gives a number only for an integer, that which the value of the node denotes. A number
of any size is written as its decimal digits and is decoded from them. -/
structure ExactIntegers (encode : α → Json) (decode : Decoder α) (make : Int → α) : Prop where
  denoted {levels : Nat} {phase : Phase} {node : Json} {k : Int} :
    decode levels phase node = .ok (make k) → ∃ j, node.Gives j ∧ Denotes j k
  node {j node : Json} (h : NumberNode j node) (levels : Nat) (phase : Phase) (a : α) :
    decode (levels + 1) phase node = .ok a ↔ ∃ k, Denotes j k ∧ make k = a
  encoded (n : Int) : encode (make n) =
    .ofMembers [("tag", .ofString "num"), ("value", .ofString (toString n))]
  decoded (n : Int) (levels : Nat) (phase : Phase) :
    decode (levels + 1) phase (encode (make n)) = .ok (make n)

/-- A value is opened by its tag, and of the tags only that of numbers leads to one. -/
theorem exactIntegers_of_tags {encode : α → Json} {make : Int → α} {name label : String}
    {known : List String} {next : Nat → String × Contents → Except DecodeFault α}
    (hknown : "num" ∈ known) (hmake : ∀ k k', make k = make k' → k = k')
    (hnum : ∀ n contents, next n ("num", contents) =
      struct (n - 1) ⟨label, ["value"]⟩ contents fun o => make <$> o.field "value" integer)
    (hothers : ∀ n tag contents k, tag ≠ "num" → next n (tag, contents) ≠ .ok (make k))
    (hencode : ∀ n : Int, encode (make n) =
      .ofMembers [("tag", .ofString "num"), ("value", .ofString (toString n))]) :
    ExactIntegers encode
      (fun levels phase j => openTagged name known levels phase j >>= next levels) make := by
  have hnode : ∀ {j node : Json} (_ : NumberNode j node) (levels : Nat) (phase : Phase) (a : α),
      (openTagged name known (levels + 1) phase node >>= next (levels + 1)) = .ok a ↔
        ∃ k, Denotes j k ∧ make k = a :=
    fun h levels phase a => decode_numberNode h hknown (hnum (levels + 1))
  refine ⟨fun {levels phase node k} h => ?_, hnode, hencode, fun n levels phase => ?_⟩
  · obtain ⟨⟨tag, contents⟩, ho, h⟩ := bind_eq_ok.mp h
    by_cases htag : tag = "num"
    · subst htag
      rw [hnum] at h
      obtain ⟨j, k', hg, hd, hk⟩ := exists_of_struct h
      obtain rfl := hmake k' k hk
      exact ⟨j, gives_of_openTagged ho hg, integer_eq_ok_iff.mp hd⟩
    · exact absurd h (hothers levels tag contents k htag)
  · rw [hencode]
    exact (hnode .tagFirst levels phase _).mpr ⟨n, denotes_toString n, rfl⟩

theorem Source.Literal.exactIntegers : ExactIntegers Literal.encode Literal.decode .num := by
  refine exactIntegers_of_tags List.mem_cons_self (fun _ _ => Literal.num.inj) (fun _ _ => rfl)
    (fun n tag contents k htag h => ?_) fun _ => rfl
  dsimp only at h
  split at h
  · exact htag rfl
  · obtain ⟨_, _, _, _, hk⟩ := exists_of_struct h
    cases hk
  · cases unit_eq_ok h

theorem Flat.Operand.exactIntegers : ExactIntegers Operand.encode Operand.decode .num := by
  refine exactIntegers_of_tags List.mem_cons_self (fun _ _ => Operand.num.inj) (fun _ _ => rfl)
    (fun n tag contents k htag h => ?_) fun _ => rfl
  dsimp only at h
  split at h
  · exact htag rfl
  · obtain ⟨_, _, _, _, hk⟩ := exists_of_struct h
    cases hk
  · cases unit_eq_ok h
  · obtain ⟨_, _, _, _, hk⟩ := exists_of_struct h
    cases hk
  · obtain ⟨_, -, hk⟩ := Reading.map_eq_value.mp (Opened.build_eq_value h)
    cases hk

namespace Json

/-- The decimal digits of an integer, with a sign if it is negative. -/
def NumberText.ofInt (n : Int) : NumberText where
  negative := decide (n < 0)
  whole := ⟨Nat.toDigits 10 n.natAbs, Nat.toDigits_ne_nil, toDigits_isDigit n.natAbs⟩
  fraction := none
  exponent := none
  whole_form h := by
    obtain ⟨tail, htail⟩ := List.head?_eq_some_iff.mp h
    dsimp only at htail ⊢
    rw [htail, toDigits_eq_zero_cons htail]

theorem NumberText.negative_ofInt {n : Int} : (ofInt n).negative = true ↔ n < 0 :=
  decide_eq_true_iff

theorem NumberText.chars_ofInt (n : Int) : (ofInt n).chars = (toString n).toList := by
  have hmagnitude : (ofInt n).magnitude = Nat.toDigits 10 n.natAbs := List.append_nil _
  rw [chars, hmagnitude]
  simp only [negative_ofInt]
  cases n with
  | ofNat m =>
    have hpos : ¬ Int.ofNat m < 0 := Int.not_lt.mpr (Int.natCast_nonneg m)
    rw [if_neg hpos]
    exact (toList_ofNat 0 m).symm
  | negSucc m =>
    rw [if_pos (by omega)]
    exact (toList_negSucc 0 m).symm

theorem NumberText.isInteger_ofInt {n : Int} (low : -0x8000000000000000 ≤ n)
    (high : n < 0x10000000000000000) : (ofInt n).IsInteger n := by
  have hdigits : Nat.ofDigitChars 10 (ofInt n).whole.chars 0 = n.natAbs :=
    Nat.ofDigitChars_ten_toDigits
  refine ⟨rfl, rfl, ?_, ?_, low, high⟩
  · simp only [integer, hdigits, negative_ofInt]
    omega
  · rw [negative_ofInt]
    omega

end Json

/-- Each field of a new object starts from what the class declares last for it. -/
theorem Layout.slots_ofClasses {classes : List Source.Class} {className : String}
    {fields : ClassLayout} (h : (Layout.ofClasses classes).fields? className = some fields) :
    ∃ c, classes.reverse.find? (·.name = className) = some c ∧ ∀ name slot,
      (name, slot) ∈ fields.entries ↔ ∃ i d, LastDeclared c.fields name i d ∧
        slot = ⟨UInt32.ofNat i, .ofLiteral d.value⟩ := by
  rw [Layout.fields?_ofClasses, Option.map_eq_some_iff] at h
  obtain ⟨c, hc, rfl⟩ := h
  refine ⟨c, hc, fun name slot => ?_⟩
  rw [← Table.get?_eq_some_iff (ClassLayout.nodup_keys_ofFields c.fields),
    ClassLayout.get?_ofFields]

open Json (NumberText readValue)

/-- Integers are never rounded. Nodes for numbers have the integers that their values denote, and no
others; of the texts of numbers only the plain integers of 64 bits denote any, each of them
itself; and lowering keeps the numbers at their places in the code, in the declarations and in
new objects. -/
theorem integer_literals_exact :
    (ExactIntegers Literal.encode Literal.decode .num ∧
      ExactIntegers Operand.encode Operand.decode .num) ∧
    (∀ fuel cs token rest, readValue fuel cs = (.number token, rest) →
      ∃ t : NumberText, cs = t.chars ++ rest ∧ ∀ k, Denotes (.number token) k ↔ t.IsInteger k) ∧
    (∀ (t : NumberText) (rest : List Char), Json.Stops rest → ∀ fuel, ∃ token,
      readValue (fuel + 1) (t.chars ++ rest) = (.number token, rest) ∧
        ∀ k, Denotes (.number token) k ↔ t.IsInteger k) ∧
    (∀ n : Int, -0x8000000000000000 ≤ n → n < 0x10000000000000000 →
      (∀ rest, Json.Stops rest → ∀ fuel,
        readValue (fuel + 1) ((toString n).toList ++ rest) = (.ofInt n, rest)) ∧
      ∀ k, (Denotes (.ofInt n) k ↔ k = n) ∧ (Denotes (.ofString (toString n)) k ↔ k = n)) ∧
    (∀ ctx p names q, (flattenProgram ctx p names).result = .ok q →
      List.Forall₂ (fun body part =>
        (part.2.flatMap (·.code)).map Instr.numbers = bodyNumberRows ctx.layout body ∧
          ∀ n, InRows n (bodyNumberRows ctx.layout body) ↔
            Expr.Bring ctx.layout n (bodyExprs body)) p.bodies q.bodies ∧
      List.Forall₂ (fun decls decls' => Flat.startNumbers decls' = Source.startNumbers decls)
        p.declared q.declared) ∧
    ∀ classes className fields, (Layout.ofClasses classes).fields? className = some fields →
      ∃ c, classes.reverse.find? (·.name = className) = some c ∧ ∀ name slot,
        (name, slot) ∈ fields.entries ↔ ∃ i d, LastDeclared c.fields name i d ∧
          slot = ⟨UInt32.ofNat i, .ofLiteral d.value⟩ := by
  refine ⟨⟨Literal.exactIntegers, Operand.exactIntegers⟩, ?_, ?_, ?_, ?_, ?_⟩
  · intro fuel cs token rest h
    obtain ⟨t, rfl, rfl⟩ := Json.exists_of_readValue h
    exact ⟨t, rfl, fun k => denotes_number_iff.trans NumberText.toNumber_numeral⟩
  · intro t rest hstop fuel
    refine ⟨_, Json.readValue_chars t hstop fuel, fun k => ?_⟩
    exact denotes_number_iff.trans NumberText.toNumber_numeral
  · intro n low high
    refine ⟨fun rest hstop fuel => ?_, fun k => ⟨?_, ?_⟩⟩
    · rw [← NumberText.chars_ofInt, Json.readValue_chars _ hstop,
        NumberText.toNumber_numeral.mpr (NumberText.isInteger_ofInt low high)]
      rfl
    · exact ⟨fun h => h.unique (.number n), fun h => h ▸ .number n⟩
    · exact ⟨fun h => h.unique (denotes_toString n), fun h => h ▸ denotes_toString n⟩
  · intro ctx p names q h
    have hy := Lower.yields_of_result h
    refine ⟨(flattenProgram_lowersBodies hy).imp fun body part hb => ⟨hb.numberRows, fun n => ?_⟩,
      flattenProgram_startNumbers hy⟩
    exact Source.inRows_bodyNumberRows body
  · exact fun classes className fields h => Layout.slots_ofClasses h

def Source.account : Source.Class :=
  ⟨"Account", [⟨"limit", .number, .num 0x20000000000000000, {}⟩, ⟨"used", .number, .num 7, {}⟩], [],
    {}⟩

/-- A program with literals on both sides of what 64 bits can hold. -/
def Source.ledger : Source.Program :=
  let number : Source.Note := ⟨.number, {}⟩
  { globals := [⟨"total", .number, .num (-0x10000000000000000), {}⟩]
    classes := [Source.account]
    body := [.eval number (.construct ⟨.object "Account", {}⟩ "Account"),
      .assign number "x" (.literal number (.num 5)),
      .assign number "y" (.binary number .minus (.unary number .neg (.literal number (.num 5)))
        (.literal number (.num 0x20000000000000000)))] }

theorem ledger_literals_exact :
    let ctx : Context := ⟨.ofClasses Source.ledger.classes, {}⟩
    readValue 1 ((toString (7 : Int)).toList ++ [']']) = (.ofInt 7, [']']) ∧
    (∃ t : NumberText, (toString (7 : Int)).toList ++ [']'] = t.chars ++ [']'] ∧ t.IsInteger 7) ∧
    (∃ token, readValue 1 ((NumberText.ofInt (-3)).chars ++ [']']) = (.number token, [']']) ∧
      Denotes (.number token) (-3)) ∧
    (∃ q, (flattenProgram ctx Source.ledger {}).result = .ok q ∧
      (q.body.flatMap (·.code)).map Instr.numbers =
        [[], [0x20000000000000000], [7], [], [], [5], [5], [0x20000000000000000]] ∧
      Flat.startNumbers q.decls = [("total", -0x10000000000000000)]) ∧
    ∃ fields, ctx.layout.fields? "Account" = some fields ∧
      ("used", ⟨1, .num 7⟩) ∈ fields.entries := by
  intro ctx
  obtain ⟨-, hread, htext, hrange, hlower, hslots⟩ := integer_literals_exact
  have hstop : Json.Stops [']'] := by
    intro c hc
    cases hc
    decide
  have hseven := (hrange 7 (by decide) (by decide)).1 [']'] hstop 0
  refine ⟨hseven, ?_, ?_, ?_, ?_⟩
  · obtain ⟨t, ht, hk⟩ := hread _ _ _ _ hseven
    exact ⟨t, ht, (hk 7).mp (.number 7)⟩
  · obtain ⟨token, hr, hk⟩ := htext (.ofInt (-3)) [']'] hstop 0
    exact ⟨token, hr, (hk (-3)).mpr (NumberText.isInteger_ofInt (by decide) (by decide))⟩
  · obtain ⟨q, hq⟩ := ok_of_isOk
      (show (flattenProgram ctx Source.ledger {}).result.isOk = true by decide +kernel)
    obtain ⟨hbodies, hdecls⟩ := hlower ctx Source.ledger {} q hq
    have hrows := (List.forall₂_cons.mp hbodies).1.1
    have hstart := (List.forall₂_cons.mp hdecls).1
    exact ⟨q, hq, hrows.trans (by decide +kernel), hstart.trans (by decide +kernel)⟩
  · obtain ⟨c, hc, hs⟩ := hslots Source.ledger.classes "Account" _ rfl
    obtain rfl : Source.account = c := Option.some.inj hc
    have hlast : LastDeclared (Source.account.fields.take 1 ++ [⟨"used", .number, .num 7, {}⟩])
        "used" 1 ⟨"used", .number, .num 7, {}⟩ := (lastDeclared_concat_self rfl).mpr ⟨rfl, rfl⟩
    exact ⟨_, rfl, (hs _ _).mpr ⟨1, _, hlast, rfl⟩⟩

end BlockLowering
