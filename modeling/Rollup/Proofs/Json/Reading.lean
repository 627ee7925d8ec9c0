import Rollup.Json.Parser
import Rollup.Json.Printer
import Rollup.Proofs.Number.Digits

/-! JSON that is written is read again.

Nothing in the text of a value is a blank, a quote inside of a string is escaped, and what follows
a number is no part of one. So the reader finds each value where its text is. The reader stops when
its bound is reached; the length of the text is more than it needs.
-/

set_option autoImplicit false

namespace Rollup.Json

/-! ## Strings -/

theorem hexValue?_hexDigit : ∀ n < 16, hexValue? (hexDigit n) = some n := by decide

theorem readUnit?_small {n : Nat} (small : n < 0x20) (rest : List Char) :
    readUnit? ('0' :: '0' :: hexDigit (n / 16) :: hexDigit (n % 16) :: rest) = some (n, rest) := by
  have zero : hexValue? '0' = some 0 := rfl
  have high := hexValue?_hexDigit (n / 16) (by omega)
  have low := hexValue?_hexDigit (n % 16) (by omega)
  simp only [readUnit?, zero, high, low, bind, Option.bind, pure]
  congr 2
  omega

/-- An escaped character is read as the character, in one step. -/
theorem readChars?_escapeChar (c : Char) (fuel : Nat) (read : List (Option Char))
    (rest : List Char) :
    readChars? (fuel + 1) read (escapeChar c ++ rest) = readChars? fuel (some c :: read) rest := by
  have escaped : ∀ code : List Char, readEscape? (code ++ rest) = some (some c, rest) →
      readChars? (fuel + 1) read ('\\' :: code ++ rest) =
        readChars? fuel (some c :: read) rest := by
    intro code found
    rw [List.cons_append, readChars?, if_neg (by decide), if_pos rfl, found]
  unfold escapeChar
  split
  · rename_i same
    exact escaped ['"'] (by rw [same]; rfl)
  split
  · rename_i same
    exact escaped ['\\'] (by rw [same]; rfl)
  split
  · rename_i same
    exact escaped ['n'] (by rw [same]; rfl)
  split
  · rename_i same
    exact escaped ['r'] (by rw [same]; rfl)
  split
  · rename_i same
    exact escaped ['t'] (by rw [same]; rfl)
  split
  · rename_i same
    exact escaped ['b'] (by rw [same]; rfl)
  split
  · rename_i same
    exact escaped ['f'] (by rw [same]; rfl)
  split
  · -- All other control characters are written by their numbers.
    rename_i control
    refine escaped ['u', '0', '0', _, _] ?_
    show readUnicode? ('0' :: '0' :: hexDigit _ :: hexDigit _ :: rest) = _
    rw [readUnicode?, readUnit?_small control]
    have low : (decide (c.toNat < 0xD800) || decide (0xDFFF < c.toNat)) = true := by
      simp only [Bool.or_eq_true, decide_eq_true_eq]
      omega
    simp only [low, if_true, Char.ofNat_toNat]
  · rename_i quote backslash _ _ _ _ _ control
    rw [List.singleton_append, readChars?, if_neg quote, if_neg backslash, if_neg control]

theorem readChars?_escaped {fuel : Nat} {text rest : List Char} (read : List (Option Char))
    (enough : text.length < fuel) :
    readChars? fuel read (text.flatMap escapeChar ++ '"' :: rest) =
      some ((text.map some).reverse ++ read, rest) := by
  induction text generalizing fuel read with
  | nil =>
    obtain ⟨fuel, rfl⟩ := Nat.exists_eq_succ_of_ne_zero (Nat.ne_of_gt enough)
    rw [List.flatMap_nil, List.nil_append, readChars?, if_pos rfl]
    rfl
  | cons c text ih =>
    obtain ⟨fuel, rfl⟩ := Nat.exists_eq_succ_of_ne_zero (Nat.ne_of_gt (Nat.zero_lt_of_lt enough))
    rw [List.flatMap_cons, List.append_assoc, readChars?_escapeChar,
      ih _ (Nat.lt_of_succ_lt_succ enough)]
    simp

theorem escapeChar_ne_nil (c : Char) : escapeChar c ≠ [] := by
  unfold escapeChar
  repeat' split
  all_goals exact List.cons_ne_nil _ _

theorem length_le_escaped (text : List Char) :
    text.length ≤ (text.flatMap escapeChar).length := by
  induction text with
  | nil => exact Nat.le_refl 0
  | cons c text ih =>
    have some_ := List.length_pos_iff.mpr (escapeChar_ne_nil c)
    rw [List.flatMap_cons, List.length_append, List.length_cons]
    omega

theorem mapM_some {α : Type} (items : List α) : items.mapM some = some items :=
  (List.mapM_pure (f := id)).trans (congrArg some (List.map_id items))

theorem toList_quoted (text : String) :
    (quoted text).toList = '"' :: (text.toList.flatMap escapeChar ++ ['"']) := by
  rw [quoted, String.toList_ofList]

theorem readString?_escaped (text : String) (rest : List Char) :
    readString? (text.toList.flatMap escapeChar ++ '"' :: rest) = some (some text, rest) := by
  have enough : text.toList.length <
      (text.toList.flatMap escapeChar ++ '"' :: rest).length + 1 := by
    have le := length_le_escaped text.toList
    rw [List.length_append]
    omega
  rw [readString?, readChars?_escaped [] enough, List.append_nil]
  simp only [Option.map_some, List.reverse_reverse, List.mapM_map, Function.id_comp, mapM_some,
    String.ofList_toList]

/-! ## Numbers -/

def isNumeric (c : Char) : Bool := Number.isDigit c || c == '.' || c == 'e' || c == 'E'

theorem stops_of_isNumeric {p : Char → Bool} (part : ∀ c, p c = true → isNumeric c = true)
    {rest : List Char} (stops : Stops isNumeric rest) : Stops p rest := by
  refine fun c first => Bool.eq_false_iff.mpr fun is => ?_
  have numeric := part c is
  rw [stops c first] at numeric
  cases numeric

theorem readDigits?_append {digits rest : List Char} (all : ∀ c ∈ digits, Number.isDigit c = true)
    (some_ : digits ≠ []) (stops : Stops Number.isDigit rest) :
    readDigits? (digits ++ rest) = some (digits, rest) := by
  rw [readDigits?, takeWhile_append_of_stops all stops, dropWhile_append_of_stops all stops]
  cases digits with
  | nil => exact absurd rfl some_
  | cons c digits => rfl

theorem readWhole?_toDigits (n : Nat) {rest : List Char} (stops : Stops Number.isDigit rest) :
    readWhole? (Nat.toDigits 10 n ++ rest) = some (Nat.toDigits 10 n, rest) := by
  have digits := readDigits?_append
    (fun c => Number.isDigit_of_mem_toDigits (n := n)) Nat.toDigits_ne_nil stops
  rw [readWhole?.eq_def]
  split
  · rename_i c others same
    cases n with
    | zero =>
      -- The zero is all that is written.
      obtain rfl : rest = c :: others := (List.cons.inj same).2
      rw [stops c rfl]
      rfl
    | succ n =>
      refine absurd rfl (Number.head_toDigits (Nat.succ_pos n) '0' ?_)
      have first := congrArg List.head? same
      rwa [head?_append_of_ne_nil Nat.toDigits_ne_nil] at first
  · exact digits

theorem readNumber?_nat (n : Nat) {rest : List Char} (stops : Stops isNumeric rest) :
    readNumber? (Nat.toDigits 10 n ++ rest) = some (.ofNat n, rest) := by
  have digits : Stops Number.isDigit rest :=
    stops_of_isNumeric (fun c is => by simp [isNumeric, is]) stops
  have fraction : readFraction? rest = some ([], rest) := by
    rw [readFraction?.eq_def]
    split
    · exact absurd (stops '.' rfl) (by decide)
    · rfl
  have power : readPower? rest = some ([], rest) := by
    rw [readPower?.eq_def]
    split
    · exact absurd (stops 'e' rfl) (by decide)
    · exact absurd (stops 'E' rfl) (by decide)
    · rfl
  have magnitude : readMagnitude? (Nat.toDigits 10 n ++ rest) = some (Nat.toDigits 10 n, rest) := by
    simp only [readMagnitude?, bind, Option.bind, readWhole?_toDigits n digits, fraction, power,
      List.append_nil, pure]
  rw [readNumber?.eq_def]
  split
  · rename_i same
    exact absurd (Number.isDigit_of_toDigits_append same) (by decide)
  · rw [magnitude, Option.map_some, ofNat, Nat.toString_eq_repr, Nat.repr_eq_ofList_toDigits]

/-! ## Values -/

/-- Values that consist of texts and natural numbers. -/
inductive IsPlain : Json → Prop
  | null : IsPlain .null
  | bool (value : Bool) : IsPlain (.bool value)
  | nat (n : Nat) : IsPlain (.ofNat n)
  | string (text : String) : IsPlain (.string text)
  | array {items : List Json} : (∀ item ∈ items, IsPlain item) → IsPlain (.array items)
  | object {members : List (String × Json)} :
    (∀ member ∈ members, IsPlain member.2) → IsPlain (.object members)

def Begins (text : List Char) : Prop :=
  ∃ c rest, text = c :: rest ∧ isJsonBlank c = false ∧ c ≠ ']'

theorem skipBlanks_of_begins {text : List Char} (begins : Begins text) (rest : List Char) :
    skipBlanks (text ++ rest) = text ++ rest := by
  obtain ⟨c, tail, rfl, shown, -⟩ := begins
  exact dropWhile_of_stops (stops_cons shown)

/-- The text of a value, whatever follows it but a number, is read as the value. -/
structure ReadsBack (value : Json) : Prop where
  begins : Begins value.compact.toList
  read (fuel : Nat) (rest : List Char) : value.compact.toList.length < fuel →
    Stops isNumeric rest → readValue? fuel (value.compact.toList ++ rest) = some (value, rest)

theorem compactItems_eq (items : List Json) : compactItems items = items.map compact := by
  induction items with
  | nil => rfl
  | cons item rest ih => rw [compactItems, ih, List.map_cons]

theorem compactMembers_eq (members : List (String × Json)) : compactMembers members =
    members.map fun member => quoted member.1 ++ ":" ++ member.2.compact := by
  induction members with
  | nil => rfl
  | cons member rest ih => rw [compactMembers, ih, List.map_cons]

/-! ## Arrays -/

def itemsText (items : List Json) : List Char :=
  [','].intercalate (items.map fun item => item.compact.toList)

theorem toList_array (items : List Json) :
    (Json.array items).compact.toList = '[' :: (itemsText items ++ [']']) := by
  rw [compact, compactItems_eq, String.toList_append, String.toList_append,
    String.toList_intercalate, List.map_map]
  rfl

theorem itemsText_cons (item next : Json) (rest : List Json) :
    itemsText (item :: next :: rest) =
      item.compact.toList ++ ',' :: itemsText (next :: rest) := by
  rw [itemsText, List.map_cons, List.map_cons, List.intercalate_cons_cons, itemsText,
    List.map_cons, List.append_assoc]
  rfl

theorem begins_itemsText {item : Json} (back : item.ReadsBack) (rest : List Json) :
    Begins (itemsText (item :: rest)) := by
  obtain ⟨c, tail, same, is⟩ := back.begins
  cases rest with
  | nil => exact ⟨c, tail, by simpa [itemsText] using same, is⟩
  | cons next rest => exact ⟨c, _, by rw [itemsText_cons, same, List.cons_append], is⟩

theorem readItems?_itemsText {items : List Json} {item : Json}
    (back : ∀ each ∈ item :: items, each.ReadsBack) (fuel : Nat) (rest : List Char)
    (enough : (itemsText (item :: items)).length + 1 < fuel) :
    readItems? fuel (itemsText (item :: items) ++ ']' :: rest) = some (item :: items, rest) := by
  induction items generalizing item fuel with
  | nil =>
    obtain ⟨fuel, rfl⟩ := Nat.exists_eq_succ_of_ne_zero (Nat.ne_of_gt (Nat.zero_lt_of_lt enough))
    have single : itemsText [item] = item.compact.toList := by simp [itemsText]
    rw [single] at enough ⊢
    have read := (back item List.mem_cons_self).read fuel (']' :: rest) (by omega) (stops_cons rfl)
    simp only [readItems?, read]
    rfl
  | cons next items ih =>
    obtain ⟨fuel, rfl⟩ := Nat.exists_eq_succ_of_ne_zero (Nat.ne_of_gt (Nat.zero_lt_of_lt enough))
    have others := fun each listed => back each (List.mem_cons_of_mem _ listed)
    rw [itemsText_cons, List.append_assoc, List.cons_append] at *
    rw [List.length_append, List.length_cons] at enough
    have read := (back item List.mem_cons_self).read fuel
      (',' :: (itemsText (next :: items) ++ ']' :: rest)) (by omega) (stops_cons rfl)
    have tail := ih others fuel (by omega)
    have begins := begins_itemsText (others next List.mem_cons_self) items
    have comma : skipBlanks (',' :: (itemsText (next :: items) ++ ']' :: rest)) =
        ',' :: (itemsText (next :: items) ++ ']' :: rest) := rfl
    simp only [readItems?, read, comma, skipBlanks_of_begins begins, tail, Option.map_some]

/-! ## Objects -/

def memberText (member : String × Json) : List Char :=
  (quoted member.1).toList ++ ':' :: member.2.compact.toList

def membersText (members : List (String × Json)) : List Char :=
  [','].intercalate (members.map memberText)

theorem toList_object (members : List (String × Json)) :
    (Json.object members).compact.toList = '\x7b' :: (membersText members ++ ['\x7d']) := by
  have each : String.toList ∘ (fun member : String × Json =>
      quoted member.1 ++ ":" ++ member.2.compact) = memberText := by
    funext member
    rw [Function.comp_apply, String.toList_append, String.toList_append, List.append_assoc]
    rfl
  rw [compact, compactMembers_eq, String.toList_append, String.toList_append,
    String.toList_intercalate, List.map_map, each]
  rfl

theorem membersText_cons (member next : String × Json) (rest : List (String × Json)) :
    membersText (member :: next :: rest) =
      memberText member ++ ',' :: membersText (next :: rest) := by
  rw [membersText, List.map_cons, List.map_cons, List.intercalate_cons_cons, membersText,
    List.map_cons, List.append_assoc]
  rfl

theorem readName?_quoted {value : Json} (begins : Begins value.compact.toList) (name : String)
    (rest : List Char) : readName? (memberText (name, value) ++ rest) =
      some (some name, value.compact.toList ++ rest) := by
  have text : memberText (name, value) ++ rest =
      '"' :: (name.toList.flatMap escapeChar ++ '"' :: ':' :: (value.compact.toList ++ rest)) := by
    simp [memberText, toList_quoted]
  have colon : ∀ text : List Char, skipBlanks (':' :: text) = ':' :: text := fun _ => rfl
  simp only [text, readName?, readString?_escaped, bind, Option.bind, colon,
    skipBlanks_of_begins begins, pure]

theorem begins_membersText (member : String × Json) (rest : List (String × Json)) :
    ∃ tail, membersText (member :: rest) = '"' :: tail := by
  cases rest with
  | nil => exact ⟨_, by simp [membersText, memberText, toList_quoted]; rfl⟩
  | cons next rest => exact ⟨_, by rw [membersText_cons, memberText, toList_quoted]; rfl⟩

theorem readMembers?_membersText {members : List (String × Json)} {member : String × Json}
    (back : ∀ each ∈ member :: members, each.2.ReadsBack) (fuel : Nat) (rest : List Char)
    (enough : (membersText (member :: members)).length + 1 < fuel) :
    readMembers? fuel (membersText (member :: members) ++ '\x7d' :: rest) =
      some ((member :: members).map fun each => (some each.1, each.2), rest) := by
  have long : ∀ member : String × Json,
      member.2.compact.toList.length < (memberText member).length := by
    intro member
    rw [memberText, List.length_append, List.length_cons]
    omega
  induction members generalizing member fuel with
  | nil =>
    obtain ⟨fuel, rfl⟩ := Nat.exists_eq_succ_of_ne_zero (Nat.ne_of_gt (Nat.zero_lt_of_lt enough))
    have single : membersText [member] = memberText member := by simp [membersText]
    rw [single] at enough ⊢
    have back := back member List.mem_cons_self
    have more := long member
    have read := back.read fuel ('\x7d' :: rest) (by omega) (stops_cons rfl)
    simp only [readMembers?, readName?_quoted back.begins, read]
    rfl
  | cons next members ih =>
    obtain ⟨fuel, rfl⟩ := Nat.exists_eq_succ_of_ne_zero (Nat.ne_of_gt (Nat.zero_lt_of_lt enough))
    have others := fun each listed => back each (List.mem_cons_of_mem _ listed)
    rw [membersText_cons, List.append_assoc, List.cons_append] at *
    rw [List.length_append, List.length_cons] at enough
    have back := back member List.mem_cons_self
    have more := long member
    have read := back.read fuel (',' :: (membersText (next :: members) ++ '\x7d' :: rest))
      (by omega) (stops_cons rfl)
    have tail := ih others fuel (by omega)
    obtain ⟨text, begins⟩ := begins_membersText next members
    have comma : ∀ text : List Char, skipBlanks (',' :: text) = ',' :: text := fun _ => rfl
    have shown : skipBlanks (membersText (next :: members) ++ '\x7d' :: rest) =
        membersText (next :: members) ++ '\x7d' :: rest := by rw [begins]; rfl
    simp only [readMembers?, readName?_quoted back.begins, read, comma, shown, tail,
      Option.map_some, List.map_cons]

theorem ofMembers?_some (members : List (String × Json)) :
    ofMembers? (members.map fun member => (some member.1, member.2)) = some (.object members) := by
  have each : members.mapM (fun member => some (member.1, member.2)) = some members :=
    mapM_some members
  simp [ofMembers?, List.mapM_map, Function.comp_def, each]

/-! ## All values -/

theorem readsBack_nat (n : Nat) : (ofNat n).ReadsBack := by
  have text : (ofNat n).compact.toList = Nat.toDigits 10 n := Number.toList_repr n
  constructor
  · rw [text]
    cases shown : Nat.toDigits 10 n with
    | nil => exact absurd shown Nat.toDigits_ne_nil
    | cons c tail =>
      have is := Number.isDigit_of_mem_toDigits (shown ▸ List.mem_cons_self)
      refine ⟨c, tail, rfl, ?_, fun same => ?_⟩
      · refine Bool.eq_false_iff.mpr fun blank => ?_
        simp only [isJsonBlank, Bool.or_eq_true, beq_iff_eq] at blank
        rcases blank with ((rfl | rfl) | rfl) | rfl <;> exact absurd is (by decide)
      · exact absurd is (same ▸ by decide)
  · intro fuel rest enough stops
    obtain ⟨fuel, rfl⟩ := Nat.exists_eq_succ_of_ne_zero (Nat.ne_of_gt (Nat.zero_lt_of_lt enough))
    rw [text, readValue?.eq_def]
    dsimp only
    split
    case h_7 => exact readNumber?_nat n stops
    all_goals exact absurd (Number.isDigit_of_toDigits_append (by assumption)) (by decide)

theorem readsBack_string (text : String) : (Json.string text).ReadsBack := by
  have shown : (Json.string text).compact.toList =
      '"' :: (text.toList.flatMap escapeChar ++ ['"']) := toList_quoted text
  refine ⟨⟨'"', _, shown, rfl, by decide⟩, fun fuel rest enough _ => ?_⟩
  obtain ⟨fuel, rfl⟩ := Nat.exists_eq_succ_of_ne_zero (Nat.ne_of_gt (Nat.zero_lt_of_lt enough))
  rw [shown, List.cons_append, List.append_assoc, List.singleton_append]
  simp only [readValue?, readString?_escaped, Option.map_some]
  rfl

theorem readsBack_array {items : List Json} (back : ∀ item ∈ items, item.ReadsBack) :
    (Json.array items).ReadsBack := by
  refine ⟨⟨'[', _, toList_array items, rfl, by decide⟩, fun fuel rest enough _ => ?_⟩
  obtain ⟨fuel, rfl⟩ := Nat.exists_eq_succ_of_ne_zero (Nat.ne_of_gt (Nat.zero_lt_of_lt enough))
  rw [toList_array, List.length_cons, List.length_append, List.length_singleton] at enough
  rw [toList_array, List.cons_append, List.append_assoc, List.singleton_append]
  cases items with
  | nil => rfl
  | cons item items =>
    have begins := begins_itemsText (back item List.mem_cons_self) items
    have read := readItems?_itemsText back fuel rest (by omega)
    have shown := skipBlanks_of_begins begins (']' :: rest)
    obtain ⟨c, tail, same, -, differs⟩ := begins
    simp only [readValue?, shown]
    split
    · rename_i closed
      rw [same] at closed
      exact absurd (List.cons.inj closed).1 differs
    · rw [read]
      rfl

theorem readsBack_object {members : List (String × Json)}
    (back : ∀ member ∈ members, member.2.ReadsBack) : (Json.object members).ReadsBack := by
  refine ⟨⟨'\x7b', _, toList_object members, rfl, by decide⟩, fun fuel rest enough _ => ?_⟩
  obtain ⟨fuel, rfl⟩ := Nat.exists_eq_succ_of_ne_zero (Nat.ne_of_gt (Nat.zero_lt_of_lt enough))
  rw [toList_object, List.length_cons, List.length_append, List.length_singleton] at enough
  rw [toList_object, List.cons_append, List.append_assoc, List.singleton_append]
  cases members with
  | nil => rfl
  | cons member members =>
    have read := readMembers?_membersText back fuel rest (by omega)
    obtain ⟨tail, begins⟩ := begins_membersText member members
    have shown : skipBlanks (membersText (member :: members) ++ '\x7d' :: rest) =
        membersText (member :: members) ++ '\x7d' :: rest := by rw [begins]; rfl
    simp only [readValue?, shown]
    split
    · rename_i closed
      rw [begins] at closed
      exact absurd (List.cons.inj closed).1 (by decide)
    · simp only [read, Option.map_some, ofMembers?_some]
      rfl

theorem IsPlain.readsBack {value : Json} (plain : value.IsPlain) : value.ReadsBack := by
  induction plain with
  | null =>
    refine ⟨⟨'n', _, rfl, rfl, by decide⟩, fun fuel rest enough _ => ?_⟩
    cases fuel with
    | zero => cases enough
    | succ fuel => rfl
  | bool value =>
    cases value with
    | true =>
      refine ⟨⟨'t', _, rfl, rfl, by decide⟩, fun fuel rest enough _ => ?_⟩
      cases fuel with
      | zero => cases enough
      | succ fuel => rfl
    | false =>
      refine ⟨⟨'f', _, rfl, rfl, by decide⟩, fun fuel rest enough _ => ?_⟩
      cases fuel with
      | zero => cases enough
      | succ fuel => rfl
  | nat n => exact readsBack_nat n
  | string text => exact readsBack_string text
  | array _ ih => exact readsBack_array ih
  | object _ ih => exact readsBack_object ih

/-- A value is read from its text. -/
theorem parse?_compact {value : Json} (plain : value.IsPlain) :
    parse? value.compact = some value := by
  have back := plain.readsBack
  have shown := skipBlanks_of_begins back.begins []
  rw [List.append_nil] at shown
  have read := back.read (value.compact.toList.length + 1) [] (Nat.lt_succ_self _) stops_nil
  rw [List.append_nil] at read
  simp only [parse?, shown, read, bind, Option.bind]
  rfl

end Rollup.Json
